import HandsomeMod.Spec.MtdEraseLoop
import HandsomeMod.Spec.MtdFixBlock

/-!
# A TRX header is fixed once

The data are read a part of a block at a time, and parts of bad blocks are left out: `goodData` is
what is read, `readGood_ok`. The header is in front of it and is the only thing that changes. The
CRC is right unless the length of the data is not an `int`.
-/

namespace HandsomeMod.Native.MtdFix

open ForStd Mtd

variable {w : Nat} {env : Env w} {d : MtdDev} {fd fd' : Fd}

/-! ### Data in blocks that are not bad -/

/-- The bytes from `pos` to `pos + n` whose blocks are not bad. -/
def goodData (d : MtdDev) (m : Mem) (pos n : Nat) : List UInt8 :=
  ((List.range n).filter fun i => !d.isBad ((pos + i) / d.erasesize)).map fun i => m (pos + i)

/-- Nothing is read of no bytes. -/
private theorem goodData_zero (m : Mem) (pos : Nat) : goodData d m pos 0 = [] := rfl

/-- The good data of two ranges that follow one another. -/
private theorem goodData_add (m : Mem) (pos a b : Nat) :
    goodData d m pos (a + b) = goodData d m pos a ++ goodData d m (pos + a) b := by
  simp only [goodData, List.range_add, List.filter_append, List.map_append, List.filter_map,
    List.map_map]
  congr 1
  simp only [Function.comp_def, Nat.add_assoc]

/-- All of the bytes are in the same kind of block. -/
private theorem goodData_of_isBad (m : Mem) {pos n : Nat} {bad : Bool}
    (h : ∀ i < n, d.isBad ((pos + i) / d.erasesize) = bad) :
    goodData d m pos n = if bad then [] else bytesAt m pos n := by
  have hfilter : (List.range n).filter (fun i => !d.isBad ((pos + i) / d.erasesize)) =
      (List.range n).filter fun _ => !bad := by
    apply List.filter_congr
    intro i hi
    rw [h i (List.mem_range.mp hi)]
  rw [goodData, hfilter]
  cases bad with
  | true => simp
  | false => simp [bytesAt]

/-- The good data from a position on depend on the bytes from there on. -/
private theorem goodData_congr {m m' : Mem} {pos : Nat} (n : Nat) (h : ∀ x, pos ≤ x → m' x = m x) :
    goodData d m' pos n = goodData d m pos n :=
  List.map_congr_left fun i _ => h (pos + i) (Nat.le_add_right pos i)

/-- The good data are not longer than the range. -/
private theorem length_goodData_le (m : Mem) (pos n : Nat) : (goodData d m pos n).length ≤ n := by
  rw [goodData, List.length_map]
  exact (List.length_filter_le _ _).trans_eq List.length_range

/-! ### Parts of a block -/

/-- The blocks of a NAND device can be addressed by masks. -/
def NandAligned (d : MtdDev) : Prop := d.mtdtype = .nandflash → ∃ k, d.erasesize = 2 ^ k

/-- A mask divides a number into two. -/
private theorem and_not_add_and (x mask : BitVec w) :
    (x &&& ~~~mask).toNat + (x &&& mask).toNat = x.toNat := by
  have hdisj : (x &&& ~~~mask) &&& (x &&& mask) = 0#w := by
    ext i hi
    simp only [BitVec.getElem_and, BitVec.getElem_not, BitVec.getElem_zero]
    cases x[i] <;> cases mask[i] <;> rfl
  have hor : (x &&& ~~~mask) ||| (x &&& mask) = x := by
    ext i hi
    simp only [BitVec.getElem_or, BitVec.getElem_and, BitVec.getElem_not]
    cases x[i] <;> cases mask[i] <;> rfl
  rw [← BitVec.toNat_add_of_and_eq_zero hdisj, BitVec.add_eq_or_of_and_eq_zero _ _ hdisj, hor]

/-- An offset is the start of its block and the offset in the block. -/
private theorem blockStart_add_and (d : MtdDev) (x : BitVec w) :
    (blockStart d x).toNat + (x &&& sizeT w (erasesize d - 1)).toNat = x.toNat := by
  have hnot : sizeT w (~~~(erasesize d - 1)) = ~~~sizeT w (erasesize d - 1) :=
    BitVec.signExtend_not (by omega)
  rw [blockStart, hnot, and_not_add_and]

/-- There is memory for a block. -/
structure HasBlock (env : Env w) (d : MtdDev) : Prop where
  size_pos : 0 < d.size
  malloc : env.malloc (sizeT w (erasesize d)).toNat = true

namespace HasBlock

variable (h : HasBlock env d)

include h

/-- The erase size fits a `size_t`. -/
private theorem erasesize_eq : (sizeT w (erasesize d)).toNat = d.erasesize := by
  rw [sizeT_toNat env.width (env.malloc_lt _ h.malloc), erasesize, BitVec.toNat_ofNat,
    Nat.mod_eq_of_lt (erasesize_lt d h.size_pos)]

/-- The size of a block is not negative as `int`. -/
private theorem erasesize_lt : d.erasesize < 2 ^ 31 := by
  have hw := env.width
  have hpos := d.erasesize_pos
  have hlt := MtdFix.erasesize_lt d h.size_pos
  have hmalloc := env.malloc_lt _ h.malloc
  have heq := h.erasesize_eq
  have hint : (erasesize d).toNat = d.erasesize := by
    rw [erasesize, BitVec.toNat_ofNat, Nat.mod_eq_of_lt hlt]
  by_contra hge
  -- A negative `int` is the same number as `size_t` only if this has 32 bits.
  have hmsb : (erasesize d).msb = true := by
    rw [BitVec.msb_eq_decide, decide_eq_true_eq]
    omega
  rw [sizeT, BitVec.toNat_signExtend, hmsb, if_pos rfl, BitVec.toNat_setWidth_of_le hw, hint] at heq
  rw [h.erasesize_eq] at hmalloc
  -- and there a block of half the address space leaves no place for the device
  have hpow : 2 ^ 32 ≤ 2 ^ w := Nat.pow_le_pow_right (by omega) hw
  have hw32 : w = 32 := by
    by_contra hne
    have hlt' : 2 ^ 32 < 2 ^ w := Nat.pow_lt_pow_right (by omega) (by omega)
    omega
  subst hw32
  omega

/-- The mask for a block fits a `size_t`. -/
private theorem mask_eq : (sizeT w (erasesize d - 1)).toNat = d.erasesize - 1 := by
  have hpos := d.erasesize_pos
  have hlt := h.erasesize_lt
  have hint : (erasesize d - 1).toNat = d.erasesize - 1 := by
    rw [erasesize, BitVec.toNat_sub_of_le, BitVec.toNat_ofNat, Nat.mod_eq_of_lt (by omega)]
    · rfl
    · rw [BitVec.le_def, BitVec.toNat_ofNat, Nat.mod_eq_of_lt (by omega)]
      exact hpos
  -- an erase size below 2^31 is not extended with ones
  have hmsb : (erasesize d - 1).msb = false := by
    rw [BitVec.msb_eq_decide, decide_eq_false_iff_not]
    omega
  rw [sizeT, BitVec.toNat_signExtend, hmsb, BitVec.toNat_setWidth_of_le env.width, hint]
  rfl

/-- The masked position is inside of a block. -/
private theorem inBlock_le (x : BitVec w) :
    (x &&& sizeT w (erasesize d - 1)).toNat ≤ d.erasesize - 1 := by
  rw [BitVec.toNat_and, ← h.mask_eq]
  exact Nat.and_le_right

/-- For an erase size that is a power of two, masking is the remainder. -/
private theorem inBlock_of_pow {k : Nat} (hk : d.erasesize = 2 ^ k) (x : BitVec w) :
    (x &&& sizeT w (erasesize d - 1)).toNat = x.toNat % d.erasesize := by
  rw [BitVec.toNat_and, h.mask_eq, hk, Nat.and_two_pow_sub_one_eq_mod]

/-- A chunk is read to the end of its block. -/
private theorem readChunk_eq (x n : BitVec w) : (readChunk d x n).toNat =
    min (d.erasesize - (x &&& sizeT w (erasesize d - 1)).toNat) n.toNat := by
  have hle := h.inBlock_le x
  have hsub : (sizeT w (erasesize d) - (x &&& sizeT w (erasesize d - 1))).toNat =
      d.erasesize - (x &&& sizeT w (erasesize d - 1)).toNat := by
    rw [BitVec.toNat_sub_of_le, h.erasesize_eq]
    rw [BitVec.le_def, h.erasesize_eq]
    omega
  rw [readChunk]
  simp only [BitVec.lt_def, hsub]
  split
  · next hlt => rw [hsub, Nat.min_eq_left hlt.le]
  · next hge => rw [Nat.min_eq_right (not_lt.mp hge)]

/-- A chunk is not empty. -/
private theorem readChunk_pos (x : BitVec w) {n : BitVec w} (hn : n ≠ 0) :
    0 < (readChunk d x n).toNat := by
  have hle := h.inBlock_le x
  have hpos := d.erasesize_pos
  have hne : n.toNat ≠ 0 := fun heq => hn (BitVec.eq_of_toNat_eq heq)
  rw [h.readChunk_eq]
  omega

/-- What `mtd_block_is_bad` returns holds of the bytes that are read next. -/
private theorem isBad_of_chunk (hnand : NandAligned d) {x n : BitVec w} {bad : Bool}
    (hx : x.toNat ≤ d.size)
    (hbad : mtdBlockIsBad d (blockStart d x).toNat = some bad) :
    (∀ i < (readChunk d x n).toNat, d.isBad ((x.toNat + i) / d.erasesize) = bad) ∧
      (bad = true → x.toNat + (readChunk d x n).toNat ≤ d.size) := by
  have hpos := d.erasesize_pos
  by_cases htype : d.mtdtype = .nandflash
  · obtain ⟨k, hk⟩ := hnand htype
    have hadd := blockStart_add_and d x
    have hmod := h.inBlock_of_pow hk x
    have hdiv := Nat.div_add_mod x.toNat d.erasesize
    have hlt := Nat.mod_lt x.toNat hpos
    have hstart : (blockStart d x).toNat = x.toNat / d.erasesize * d.erasesize := by
      rw [Nat.mul_comm]
      omega
    -- a part never goes past the end of its block
    have hchunk : (readChunk d x n).toNat ≤ d.erasesize - x.toNat % d.erasesize := by
      rw [h.readChunk_eq, hmod]
      exact Nat.min_le_left _ _
    have hblock : d.isBad (x.toNat / d.erasesize) = bad := by
      rw [hstart] at hbad
      rcases mtdBlockIsBad_block d (Nat.div_le_div_right hx) with hnone | hsome
      · rw [hnone] at hbad
        cases hbad
      · rw [hsome] at hbad
        exact Option.some.inj hbad
    constructor
    · -- The part ends in the block of `x`.
      intro i hi
      have hsame : (x.toNat + i) / d.erasesize = x.toNat / d.erasesize := by
        rw [Nat.div_eq_iff hpos, Nat.mul_comm]
        omega
      rw [hsame, hblock]
    · intro htrue
      have hlast := d.mul_erasesize_le (d.lt_nblocks_of_isBad (hblock.trans htrue))
      rw [Nat.succ_mul, Nat.mul_comm] at hlast
      omega
  -- NOR flash has no bad blocks
  · have hgood : ∀ b, d.isBad b = false := by
      intro b
      simp [MtdDev.isBad, htype]
    rw [mtdBlockIsBad, if_neg htype] at hbad
    cases hbad
    exact ⟨fun i _ => hgood _, fun hbad => (by cases hbad)⟩

end HasBlock

/-! ### The loop -/

/-- One turn of the loop that goes on. -/
private theorem readGood_succ {fuel : Nat} {x n : BitVec w} {buf r : List UInt8} (hn : n ≠ 0)
    (hr : readGood env d fd (fuel + 1) x n buf = .ok r) :
    ∃ bad, mtdBlockIsBad d (blockStart d x).toNat = some bad ∧
      (bad = false → env.pread d x.toNat (readChunk d x n).toNat = (readChunk d x n).toNat) ∧
      readGood env d fd fuel (x + readChunk d x n) (n - readChunk d x n)
        (buf ++ if bad then [] else bytesAt fd.mem x.toNat (readChunk d x n).toNat) = .ok r := by
  rw [readGood, if_neg hn] at hr
  -- a bad block is skipped unread, a good one must be read in full
  cases hbad : mtdBlockIsBad d (blockStart d x).toNat with
  | none =>
    simp only [hbad] at hr
    cases hr
  | some bad =>
    refine ⟨bad, rfl, ?_⟩
    cases bad with
    | true =>
      simp only [hbad] at hr
      refine ⟨fun h => (by cases h), ?_⟩
      rw [if_pos rfl, List.append_nil]
      exact hr
    | false =>
      simp only [hbad] at hr
      by_cases hpread : env.pread d x.toNat (readChunk d x n).toNat = (readChunk d x n).toNat
      · rw [if_neg (not_not.mpr hpread)] at hr
        exact ⟨fun _ => hpread, hr⟩
      · rw [if_pos hpread] at hr
        cases hr

/-- A part that is passed is inside of the device. -/
theorem HasBlock.chunk_le (h : HasBlock env d) (hnand : NandAligned d) {x n : BitVec w} {bad : Bool}
    (hx : x.toNat ≤ d.size) (hn : n ≠ 0)
    (hbad : mtdBlockIsBad d (blockStart d x).toNat = some bad)
    (hread : bad = false →
      env.pread d x.toNat (readChunk d x n).toNat = (readChunk d x n).toNat) :
    x.toNat + (readChunk d x n).toNat ≤ d.size := by
  cases bad with
  | true => exact (h.isBad_of_chunk hnand hx hbad).2 rfl
  | false =>
    have hle := pread_le env d x.toNat (readChunk d x n).toNat
    have hpos := h.readChunk_pos x hn
    rw [hread rfl] at hle
    omega

/-- The sums and differences of the loop are those of numbers. -/
theorem HasBlock.toNat_next (h : HasBlock env d) {x n : BitVec w}
    (hle : x.toNat + (readChunk d x n).toNat ≤ d.size) :
    (x + readChunk d x n).toNat = x.toNat + (readChunk d x n).toNat ∧
      (n - readChunk d x n).toNat + (readChunk d x n).toNat = n.toNat := by
  have hpow : 2 ^ 32 ≤ 2 ^ w := Nat.pow_le_pow_right (by omega) env.width
  have hsize := d.size_lt
  have hchunk : (readChunk d x n).toNat ≤ n.toNat := by
    rw [h.readChunk_eq]
    exact Nat.min_le_right _ _
  constructor
  · exact BitVec.toNat_add_of_lt (by omega)
  · rw [BitVec.toNat_sub_of_le (BitVec.le_def.mpr hchunk)]
    omega

/-- The loop reads the bytes of the blocks that are not bad, all of them on the device. -/
private theorem readGood_ok (h : HasBlock env d) (hnand : NandAligned d) {fuel : Nat}
    {x n : BitVec w}
    {buf r : List UInt8} (hx : x.toNat ≤ d.size) (hr : readGood env d fd fuel x n buf = .ok r) :
    x.toNat + n.toNat ≤ d.size ∧ r = buf ++ goodData d fd.mem x.toNat n.toNat := by
  induction fuel generalizing x n buf with
  | zero => cases hr
  | succ fuel ih =>
    by_cases hn : n = 0
    · rw [readGood, if_pos hn] at hr
      cases hr
      have hzero : n.toNat = 0 := by rw [hn]; exact BitVec.toNat_zero
      rw [hzero, goodData_zero, List.append_nil]
      exact ⟨hx, rfl⟩
    · obtain ⟨bad, hbad, hread, hrest⟩ := readGood_succ hn hr
      -- one part is read and the rest starts right behind it
      have hle := h.chunk_le hnand hx hn hbad hread
      obtain ⟨hnext, hleft⟩ := h.toNat_next hle
      obtain ⟨hend, hdata⟩ := ih (by omega) hrest
      rw [hnext] at hend hdata
      rw [← hleft, Nat.add_comm (n - _).toNat, goodData_add,
        goodData_of_isBad _ (h.isBad_of_chunk hnand hx hbad).1, ← List.append_assoc]
      exact ⟨by omega, hdata⟩

/-- Only the bytes from the start on matter. -/
private theorem readGood_congr (h : HasBlock env d) (hnand : NandAligned d) {fuel : Nat}
    {x n : BitVec w}
    {buf r : List UInt8} (hx : x.toNat ≤ d.size) (hmem : ∀ i, x.toNat ≤ i → fd'.mem i = fd.mem i)
    (hr : readGood env d fd fuel x n buf = .ok r) : readGood env d fd' fuel x n buf = .ok r := by
  -- the loop only reads ahead of `x`, where both files agree
  induction fuel generalizing x n buf with
  | zero => cases hr
  | succ fuel ih =>
    by_cases hn : n = 0
    · rw [readGood, if_pos hn] at hr ⊢
      exact hr
    · obtain ⟨bad, hbad, hread, hrest⟩ := readGood_succ hn hr
      have hle := h.chunk_le hnand hx hn hbad hread
      obtain ⟨hnext, -⟩ := h.toNat_next hle
      have hbytes : bytesAt fd'.mem x.toNat (readChunk d x n).toNat =
          bytesAt fd.mem x.toNat (readChunk d x n).toNat :=
        bytesAt_congr fun i _ => hmem _ (Nat.le_add_right _ i)
      have hrest' := ih (by omega) (fun i hi => hmem i (by omega)) hrest
      rw [readGood, if_neg hn]
      simp only [hbad]
      cases bad with
      | true => simpa using hrest'
      | false =>
        rw [if_neg (not_not.mpr (hread rfl)), hbytes]
        exact hrest'

/-- More turns than bytes do not change anything: the loop ends by itself. -/
theorem readGood_fuel (h : HasBlock env d) {fuel fuel' : Nat} {x n : BitVec w} (buf : List UInt8)
    (hf : n.toNat < fuel) (hf' : n.toNat < fuel') :
    readGood env d fd fuel x n buf = readGood env d fd fuel' x n buf := by
  -- each turn takes at least one byte off `n`, so fuel above `n` is never used up
  induction fuel generalizing fuel' x n buf with
  | zero => omega
  | succ fuel ih =>
    cases fuel' with
    | zero => omega
    | succ fuel' =>
      rw [readGood, readGood]
      by_cases hn : n = 0
      · rw [if_pos hn, if_pos hn]
      · have hpos := h.readChunk_pos x hn
        have hchunk : (readChunk d x n).toNat ≤ n.toNat := by
          rw [h.readChunk_eq]
          exact Nat.min_le_right _ _
        have hleft : (n - readChunk d x n).toNat = n.toNat - (readChunk d x n).toNat :=
          BitVec.toNat_sub_of_le (BitVec.le_def.mpr hchunk)
        have hnext : ∀ buf', readGood env d fd fuel (x + readChunk d x n) (n - readChunk d x n) buf' =
            readGood env d fd fuel' (x + readChunk d x n) (n - readChunk d x n) buf' :=
          fun buf' => ih buf' (by omega) (by omega)
        simp only [if_neg hn, hnext]

/-! ### The CRC -/

/-- The loop of `crc32` runs for each byte, unless the length becomes negative. -/
private theorem crc32buf_eq {buf : List UInt8} {crc : UInt32} (hlen : buf.length < 2 ^ 32)
    (h : crc32buf buf = some crc) :
    crc = if buf.length < 2 ^ 31 then Crc.accumulate 0xffffffff buf else 0xffffffff := by
  obtain ⟨turns, hturns, rfl⟩ := Option.map_eq_some_iff.mp h
  have hint : toInt buf.length =
      if buf.length < 2 ^ 31 then (buf.length : Int) else (buf.length : Int) - 2 ^ 32 := by
    rw [toInt, BitVec.toInt_eq_toNat_cond, BitVec.toNat_ofNat, Nat.mod_eq_of_lt hlen]
    split <;> split <;> omega
  rw [crc32Turns] at hturns
  -- a length from `2 ^ 31` on is a negative `int`, and the loop of `crc32` does not turn
  by_cases hshort : buf.length < 2 ^ 31
  · rw [if_pos hshort] at hint ⊢
    simp only [hint] at hturns
    rw [if_neg (by omega)] at hturns
    cases hturns
    rw [Int.toNat_natCast, List.take_length]
  · rw [if_neg hshort] at hint ⊢
    simp only [hint] at hturns
    by_cases hmin : (buf.length : Int) - 2 ^ 32 = -2 ^ 31
    · rw [if_pos hmin] at hturns
      cases hturns
    · rw [if_neg hmin] at hturns
      cases hturns
      rw [Int.toNat_of_nonpos (by omega), List.take_zero]
      rfl

/-! ### A run -/

/-- The block and the data can be read, and the block has a header. -/
structure Checked (machine : Endian) (env : Env w) (d : MtdDev) (fd : Fd) (offset dataSize : BitVec w)
    (buf : List UInt8) : Prop where
  opens : env.opens = true
  inside : offset + 12 + trxDataSize d dataSize ≤ sizeT w (mtdsize d)
  malloc : env.malloc (sizeT w (erasesize d)).toNat = true
  pread : env.pread d (blockStart d offset).toNat (sizeT w (erasesize d)).toNat =
    (sizeT w (erasesize d)).toNat
  fits : (offset - blockStart d offset).toNat + 12 ≤ (sizeT w (erasesize d)).toNat
  magic : loadLE 4 (fun i => fd.mem (offset.toNat + i)) = store32LE machine 0x30524448
  mallocData : env.malloc (trxDataSize d dataSize).toNat = true
  read : readGood env d fd ((trxDataSize d dataSize).toNat + 1) (offset + 12)
    (trxDataSize d dataSize) [] = .ok buf

/-- The header has the length and the CRC. -/
def HeaderHolds (machine : Endian) (m : Mem) (pos len : Nat) (crc : UInt32) : Prop :=
  loadLE 4 (fun i => m (pos + 4 + i)) = store32LE machine (len + 12) ∧
    loadLE 4 (fun i => m (pos + 8 + i)) = crc.toNat

/-- A header with another length and another CRC. -/
def putHeader (m : Mem) (pos len : Nat) (crc : UInt32) : Mem :=
  writeBytes (writeBytes m (pos + 4) (leBytes 4 (len + 12))) (pos + 8) (leBytes 4 crc.toNat)

/-- The new header changes length and checksum only. -/
private theorem putHeader_of_other {m : Mem} {pos len : Nat} {crc : UInt32} {x : Nat}
    (hx : x < pos + 4 ∨ pos + 12 ≤ x) : putHeader m pos len crc x = m x := by
  have hlen := length_leBytes 4 (len + 12)
  have hcrc := length_leBytes 4 crc.toNat
  rw [putHeader, writeBytes, if_neg (by omega), writeBytes, if_neg (by omega)]

/-- The new header holds its length and checksum. -/
private theorem headerHolds_putHeader (machine : Endian) (m : Mem) (pos : Nat) {len : Nat}
    (crc : UInt32)
    (hlen : len + 12 < 2 ^ 32) : HeaderHolds machine (putHeader m pos len crc) pos len crc := by
  have hlenle := length_leBytes 4 (len + 12)
  have hcrcle := length_leBytes 4 crc.toNat
  constructor
  -- a length this small is stored as it is on either machine
  · have hstore : store32LE machine (len + 12) = len + 12 := by
      cases machine with
      | little => rfl
      | big => exact Nat.mod_eq_of_lt hlen
    rw [hstore]
    apply loadLE_of_bytesAt _ (by omega)
    rw [putHeader, bytesAt_writeBytes_before _ _ (by omega)]
    exact bytesAt_writeBytes_eq _ hlenle
  · apply loadLE_of_bytesAt _ crc.toNat_lt
    exact bytesAt_writeBytes_eq _ hcrcle

variable {machine : Endian} {offset dataSize : BitVec w} {buf : List UInt8} {r : Fixed}

/-- The header is in its block where it is on the device. -/
private theorem inBlock_add (d : MtdDev) (offset : BitVec w) :
    (blockStart d offset).toNat + (offset - blockStart d offset).toNat = offset.toNat := by
  have hadd := blockStart_add_and d offset
  rw [BitVec.toNat_sub_of_le (BitVec.le_def.mpr (by omega))]
  omega

/-- A field is read of a block as on the device. -/
private theorem loadLE_block (fd : Fd) (d : MtdDev) (offset : BitVec w) (k : Nat) :
    loadLE 4 (fun i => fd.mem ((blockStart d offset).toNat +
      ((offset - blockStart d offset).toNat + k + i))) =
      loadLE 4 fun i => fd.mem (offset.toNat + k + i) := by
  rw [← inBlock_add d offset]
  simp only [Nat.add_assoc]

/-- What a run returns whose checks pass. -/
theorem mtdFixtrx_of_checked (h : Checked machine env d fd offset dataSize buf) {crc : UInt32}
    (hcrc : crc32buf buf = some crc) :
    (HeaderHolds machine fd.mem offset.toNat buf.length crc →
      mtdFixtrx machine env d fd offset dataSize = .ok (.already fd)) ∧
    (¬HeaderHolds machine fd.mem offset.toNat buf.length crc →
      mtdFixtrx machine env d fd offset dataSize =
        rewriteBlock d fd (blockStart d offset).toNat
          (putHeader (fun i => fd.mem ((blockStart d offset).toNat + i))
            (offset - blockStart d offset).toNat buf.length crc) >>= fun fd' => .ok (.rewritten fd')) := by
  have hfits := h.fits
  have hmagic := loadLE_block fd d offset 0
  simp only [Nat.add_zero] at hmagic
  rw [mtdFixtrx, if_neg (by rw [h.opens]; decide), if_neg (BitVec.not_lt.mpr h.inside),
    if_neg (by rw [h.malloc]; decide), if_neg (not_not.mpr h.pread), fixtrxBlock]
  simp only
  rw [if_neg (by omega), if_neg (not_not.mpr (hmagic.trans h.magic)),
    if_neg (by rw [h.mallocData]; decide), h.read, ok_bind, if_neg (by omega)]
  simp only [hcrc, loadLE_block]
  constructor
  · intro hholds
    exact if_pos hholds
  · intro hnot
    exact if_neg hnot

/-- A run that returns has passed its checks. -/
theorem checked_of_ok (h : mtdFixtrx machine env d fd offset dataSize = .ok r) :
    ∃ buf crc, Checked machine env d fd offset dataSize buf ∧ crc32buf buf = some crc := by
  have hmagic := loadLE_block fd d offset 0
  simp only [Nat.add_zero] at hmagic
  -- every check of the function passed, or the call would have ended with another status
  rw [mtdFixtrx] at h
  split at h
  · cases h
  next hopens =>
  split at h
  · cases h
  next hinside =>
  split at h
  · cases h
  next hmalloc =>
  split at h
  · cases h
  next hpread =>
  rw [fixtrxBlock] at h
  simp only at h
  split at h
  · cases h
  next =>
  split at h
  · cases h
  next hload =>
  split at h
  · cases h
  next hdata =>
  obtain ⟨buf, hread, h⟩ := bind_ok h
  split at h
  · cases h
  next hfits =>
  cases hcrc : crc32buf buf with
  | none =>
    rw [hcrc] at h
    cases h
  | some crc =>
    exact ⟨buf, crc,
      { opens := Bool.of_not_eq_false hopens
        inside := BitVec.not_lt.mp hinside
        malloc := Bool.of_not_eq_false hmalloc
        pread := not_not.mp hpread
        fits := not_lt.mp hfits
        magic := hmagic.symm.trans (not_not.mp hload)
        mallocData := Bool.of_not_eq_false hdata
        read := hread }, hcrc⟩

namespace Checked

/-- The device has a block. -/
private theorem hasBlock (h : Checked machine env d fd offset dataSize buf) : HasBlock env d := by
  refine ⟨?_, h.malloc⟩
  have hle := pread_le env d (blockStart d offset).toNat (sizeT w (erasesize d)).toNat
  have hpread := h.pread
  have hfits := h.fits
  omega

/-- The block of the header is inside of the device. -/
private theorem block_le (h : Checked machine env d fd offset dataSize buf) :
    (blockStart d offset).toNat + d.erasesize ≤ d.size := by
  have hle := pread_le env d (blockStart d offset).toNat (sizeT w (erasesize d)).toNat
  have hpread := h.pread
  have hpos := d.erasesize_pos
  rw [h.hasBlock.erasesize_eq] at hle hpread
  omega

/-- The header is inside of its block. -/
private theorem fits' (h : Checked machine env d fd offset dataSize buf) :
    (offset - blockStart d offset).toNat + 12 ≤ d.erasesize :=
  h.fits.trans_eq h.hasBlock.erasesize_eq

/-- The data start behind the CRC. -/
private theorem dataOffset_eq (h : Checked machine env d fd offset dataSize buf) :
    (offset + 12).toNat = offset.toNat + 12 := by
  have hadd := inBlock_add d offset
  have hblock := h.block_le
  have hfits := h.fits'
  have hsize := d.size_lt
  have hpow : 2 ^ 32 ≤ 2 ^ w := Nat.pow_le_pow_right (by omega) env.width
  have h12 : (12 : BitVec w).toNat = 12 := Nat.mod_eq_of_lt (show 12 < 2 ^ w by omega)
  have hlt : offset.toNat + (12 : BitVec w).toNat < 2 ^ w := by
    rw [h12]
    omega
  rw [BitVec.toNat_add_of_lt hlt, h12]

/-- The data start on the device. -/
private theorem dataOffset_le (h : Checked machine env d fd offset dataSize buf) :
    (offset + 12).toNat ≤ d.size := by
  have hadd := inBlock_add d offset
  have hblock := h.block_le
  have hfits := h.fits'
  rw [h.dataOffset_eq]
  omega

end Checked

/-- The data of a header on the device: the bytes from `TRX_CRC32_DATA_OFFSET` on whose blocks are
not bad. -/
def trxData (d : MtdDev) (m : Mem) (offset dataSize : BitVec w) : List UInt8 :=
  goodData d m (offset.toNat + 12) (trxDataSize d dataSize).toNat

/-- The data that were checked are those of the device. -/
theorem Checked.buf_eq (h : Checked machine env d fd offset dataSize buf) (hnand : NandAligned d) :
    offset.toNat + 12 + (trxDataSize d dataSize).toNat ≤ d.size ∧
      buf = trxData d fd.mem offset dataSize := by
  have hread := readGood_ok h.hasBlock hnand h.dataOffset_le h.read
  rwa [h.dataOffset_eq, List.nil_append] at hread

/-- The length that is stored is one of 32 bits. -/
theorem Checked.length_lt (h : Checked machine env d fd offset dataSize buf) (hnand : NandAligned d) :
    buf.length + 12 < 2 ^ 32 := by
  obtain ⟨hend, hbuf⟩ := h.buf_eq hnand
  have hle := length_goodData_le (d := d) fd.mem (offset.toNat + 12) (trxDataSize d dataSize).toNat
  have hsize := d.size_lt
  rw [hbuf, trxData]
  omega

/-- A change of the length and the CRC does not matter to the checks. -/
theorem Checked.congr (h : Checked machine env d fd offset dataSize buf) (hnand : NandAligned d)
    (hmem : ∀ x, x < offset.toNat + 4 ∨ offset.toNat + 12 ≤ x → fd'.mem x = fd.mem x) :
    Checked machine env d fd' offset dataSize buf :=
  { h with
    magic := by
      rw [← h.magic]
      exact Endian.load_congr .little fun i hi => hmem _ (.inl (by omega))
    read := by
      apply readGood_congr h.hasBlock hnand h.dataOffset_le _ h.read
      intro i hi
      rw [h.dataOffset_eq] at hi
      exact hmem i (.inr hi) }

/-- How a run ends: the header holds, and no more than its length and its CRC has changed. -/
theorem Checked.ends (h : Checked machine env d fd offset dataSize buf) (hnand : NandAligned d)
    {crc : UInt32} (hcrc : crc32buf buf = some crc)
    (hrun : mtdFixtrx machine env d fd offset dataSize = .ok r) :
    HeaderHolds machine r.fd.mem offset.toNat buf.length crc ∧
      ∀ x, x < offset.toNat + 4 ∨ offset.toNat + 12 ≤ x → r.fd.mem x = fd.mem x := by
  obtain ⟨halready, hrewrite⟩ := mtdFixtrx_of_checked h hcrc
  -- a header that is right already is left as it is
  by_cases hholds : HeaderHolds machine fd.mem offset.toNat buf.length crc
  · rw [halready hholds] at hrun
    cases hrun
    exact ⟨hholds, fun x _ => rfl⟩
  · rw [hrewrite hholds] at hrun
    obtain ⟨fd', hfd', hrun⟩ := bind_ok hrun
    cases hrun
    have hblock := h.block_le
    have hfits := h.fits'
    have hpos := d.erasesize_pos
    -- a block that cannot be rewritten ends the program, and the call returned
    have hcan : CanRewrite d (blockStart d offset).toNat := by
      by_contra hnot
      obtain ⟨fd'', hexit⟩ := rewriteBlock_exit fd _ hnot (by omega)
      rw [hexit] at hfd'
      cases hfd'
    obtain ⟨fd'', hok, hmem⟩ := rewriteBlock_ok fd
      (putHeader (fun i => fd.mem ((blockStart d offset).toNat + i))
        (offset - blockStart d offset).toNat buf.length crc) hcan hblock
    cases hok.symm.trans hfd'
    have hlen := length_leBytes 4 (buf.length + 12)
    have hlen' := length_leBytes 4 crc.toNat
    -- The block that is written is the old one with another header.
    have hput : fd'.mem = putHeader fd.mem offset.toNat buf.length crc := by
      rw [hmem, putHeader, rewritten_writeBytes (by omega), rewritten_writeBytes (by omega),
        rewritten_self, ← Nat.add_assoc, ← Nat.add_assoc, inBlock_add, putHeader]
    change HeaderHolds machine fd'.mem _ _ _ ∧ ∀ x, _ → fd'.mem x = _
    rw [hput]
    exact ⟨headerHolds_putHeader machine _ _ _ (h.length_lt hnand), fun x hx => putHeader_of_other hx⟩

/-! ### The result -/

/-- What a run leaves of the memory `m` of the device. -/
structure FixedOnce (machine : Endian) (env : Env w) (d : MtdDev) (m : Mem) (offset dataSize : BitVec w)
    (r : Fixed) : Prop where
  kept : ∀ x, x < offset.toNat + 4 ∨ offset.toNat + 12 ≤ x → r.fd.mem x = m x
  len : loadLE 4 (fun i => r.fd.mem (offset.toNat + 4 + i)) =
    12 + (trxData d r.fd.mem offset dataSize).length
  crc : loadLE 4 (fun i => r.fd.mem (offset.toNat + 8 + i)) =
    (Crc.accumulate 0xffffffff (trxData d r.fd.mem offset dataSize)).toNat
  again : mtdFixtrx machine env d r.fd offset dataSize = .ok (.already r.fd)

/-- The CRC that is in the header behind a run; the data are those in front of it. -/
theorem stored_crc (hnand : NandAligned d) (hrun : mtdFixtrx machine env d fd offset dataSize = .ok r) :
    loadLE 4 (fun i => r.fd.mem (offset.toNat + 8 + i)) =
        (if (trxData d fd.mem offset dataSize).length < 2 ^ 31 then
          Crc.accumulate 0xffffffff (trxData d fd.mem offset dataSize) else 0xffffffff).toNat ∧
      trxData d r.fd.mem offset dataSize = trxData d fd.mem offset dataSize := by
  obtain ⟨buf, crc, hchecked, hcrc⟩ := checked_of_ok hrun
  obtain ⟨⟨-, hfield⟩, hkept⟩ := hchecked.ends hnand hcrc hrun
  have hlt := hchecked.length_lt hnand
  rw [← (hchecked.buf_eq hnand).2, hfield, crc32buf_eq (by omega) hcrc]
  exact ⟨rfl, (goodData_congr _ fun x hx => hkept x (.inr hx)).trans (hchecked.buf_eq hnand).2.symm⟩

/-- A run fixes the header for good if `int` holds the length of the data; a longer length is
negative for `crc32`, which then looks at no data. -/
theorem fixedOnce_iff (hnand : NandAligned d)
    (hrun : mtdFixtrx machine env d fd offset dataSize = .ok r) :
    FixedOnce machine env d fd.mem offset dataSize r ↔
      (trxData d fd.mem offset dataSize).length < 2 ^ 31 ∨
        Crc.accumulate 0xffffffff (trxData d fd.mem offset dataSize) = 0xffffffff := by
  obtain ⟨hstored, hsame⟩ := stored_crc hnand hrun
  constructor
  · intro h
    have hcrc := h.crc
    rw [hstored, hsame] at hcrc
    by_cases hshort : (trxData d fd.mem offset dataSize).length < 2 ^ 31
    · exact .inl hshort
    · rw [if_neg hshort] at hcrc
      exact .inr (UInt32.toNat_inj.mp hcrc).symm
  -- the second run reads the same data behind the header, computes the same checksum and stops
  · intro hgood
    obtain ⟨buf, crc, hchecked, hcrc⟩ := checked_of_ok hrun
    obtain ⟨hholds, hkept⟩ := hchecked.ends hnand hcrc hrun
    have hagain := (mtdFixtrx_of_checked (hchecked.congr hnand hkept) hcrc).1 hholds
    refine ⟨hkept, ?_, ?_, hagain⟩
    · rw [hholds.1, hsame, ← (hchecked.buf_eq hnand).2, Nat.add_comm 12]
      cases machine with
      | little => rfl
      | big => exact Nat.mod_eq_of_lt (hchecked.length_lt hnand)
    · rw [hstored, hsame]
      split
      · rfl
      · next hlong => rw [hgood.resolve_left hlong]

/-! ### A device with a bad block -/

private theorem smallDev_pos : 0 < 32 := by decide

private theorem smallDev_dvd : 32 ∣ 96 := by decide

/-- Three blocks of a NAND device; the second is bad. -/
def smallDev : MtdDev where
  mtdtype := .nandflash
  erasesize := 32
  size := 96
  bad := fun b => b == 1
  eraseFault := fun _ => false
  writeFault := fun _ => none
  erasesize_pos := smallDev_pos
  size_dvd := smallDev_dvd
  size_lt := by decide

/-- A device that starts with the magic, behind which is `l`. -/
def trxFd (l : List UInt8) : Fd where
  pos := 0
  mem := fun i => ([0x48, 0x44, 0x52, 0x30] ++ l).getD i 0
  log := []

/-- A header in the first of three small blocks. -/
theorem fixedOnce_smallDev : ∃ r, mtdFixtrx .little (goodEnv 32) smallDev (trxFd []) 0 60 = .ok r ∧
    FixedOnce .little (goodEnv 32) smallDev (trxFd []).mem 0 60 r := by
  have hnand : NandAligned smallDev := fun _ => ⟨5, rfl⟩
  have hok : ∃ r, mtdFixtrx .little (goodEnv 32) smallDev (trxFd []) 0 60 = .ok r := by
    apply exists_ok_of_isOk
    decide +kernel
  obtain ⟨r, hr⟩ := hok
  exact ⟨r, hr, (fixedOnce_iff hnand hr).mpr (.inl (by decide))⟩

/-! ### A device that is too long -/

/-- Nothing fails: the loop gets to its end. -/
theorem readGood_of_good (fd : Fd) (h : HasBlock env d) (htype : d.mtdtype ≠ .nandflash)
    (hread : env.readFault = fun _ _ => none) {fuel : Nat} {x n : BitVec w} (buf : List UInt8)
    (hend : x.toNat + n.toNat ≤ d.size) (hfuel : n.toNat < fuel) :
    ∃ r, readGood env d fd fuel x n buf = .ok r := by
  -- without faults and bad blocks every turn reads its part
  induction fuel generalizing x n buf with
  | zero => omega
  | succ fuel ih =>
    rw [readGood]
    by_cases hn : n = 0
    · rw [if_pos hn]
      exact ⟨buf, rfl⟩
    · have hpos := h.readChunk_pos x hn
      have hchunk : (readChunk d x n).toNat ≤ n.toNat := by
        rw [h.readChunk_eq]
        exact Nat.min_le_right _ _
      obtain ⟨hnext, hleft⟩ := h.toNat_next (x := x) (n := n) (by omega)
      have hgood : mtdBlockIsBad d (blockStart d x).toNat = some false := if_neg htype
      have hpread : env.pread d x.toNat (readChunk d x n).toNat = (readChunk d x n).toNat := by
        rw [Env.pread, MtdDev.pread, hread]
        exact Nat.min_eq_left (by omega)
      rw [if_neg hn]
      simp only [hgood]
      rw [if_neg (not_not.mpr hpread)]
      exact ih _ (by omega) (by omega)

private theorem longDev_dvd : 65536 ∣ 49152 * 65536 := Nat.dvd_mul_left _ _

/-- A NOR device of 3 GiB. -/
def longDev : MtdDev where
  mtdtype := .other
  erasesize := 65536
  size := 49152 * 65536
  bad := fun _ => false
  eraseFault := fun _ => false
  writeFault := fun _ => none
  erasesize_pos := by decide
  size_dvd := longDev_dvd
  size_lt := by decide

/-- What `malloc` gives is below half of the address space. -/
private theorem longEnv_malloc (n : Nat) (h : decide (n < 2 ^ 63) = true) : n < 2 ^ (64 - 1) :=
  of_decide_eq_true h

/-- `size_t` has 64 bits, and there is memory. -/
def longEnv : Env 64 where
  opens := true
  erasesize := 65536
  malloc := fun n => decide (n < 2 ^ 63)
  readFault := fun _ _ => none
  width := by decide
  malloc_lt := longEnv_malloc

/-- The data start with `0xffffffff`, which makes a CRC of zero. -/
def longFd : Fd := trxFd [0, 0, 0, 0, 0, 0, 0, 0, 0xff, 0xff, 0xff, 0xff]

/-- The device of three gigabytes has a block. -/
theorem longDev_hasBlock : HasBlock longEnv longDev := ⟨by decide, by decide⟩

/-- The data of 2 GiB. -/
theorem longDev_data : trxData longDev longFd.mem (0 : BitVec 64) (2 ^ 31) =
    [0xff, 0xff, 0xff, 0xff] ++ List.replicate (2 ^ 31 + 12) 0 := by
  have hsize : (trxDataSize longDev (2 ^ 31 : BitVec 64)).toNat = 4 + (2 ^ 31 + 12) := by decide
  have hgood : ∀ i < 4 + (2 ^ 31 + 12), longDev.isBad ((12 + i) / longDev.erasesize) = false :=
    fun i _ => rfl
  have htail : bytesAt longFd.mem (12 + 4) (2 ^ 31 + 12) = List.replicate (2 ^ 31 + 12) 0 := by
    rw [bytesAt, List.eq_replicate_iff]
    refine ⟨by rw [List.length_map, List.length_range], fun b hb => ?_⟩
    obtain ⟨i, -, rfl⟩ := List.mem_map.mp hb
    exact List.getD_eq_default _ _ (by simp)
  rw [trxData, hsize]
  exact (goodData_of_isBad _ hgood).trans ((bytesAt_add _ _ _ _).trans (by rw [htail]; rfl))

/-- Each run on the device returns that passes its checks. -/
theorem longDev_ok (h : Checked .little longEnv longDev longFd 0 (2 ^ 31) buf) {crc : UInt32}
    (hcrc : crc32buf buf = some crc) :
    ∃ r, mtdFixtrx .little longEnv longDev longFd 0 (2 ^ 31) = .ok r := by
  obtain ⟨halready, hrewrite⟩ := mtdFixtrx_of_checked h hcrc
  by_cases hholds : HeaderHolds .little longFd.mem (0 : BitVec 64).toNat buf.length crc
  · exact ⟨_, halready hholds⟩
  · have hcan : CanRewrite longDev (blockStart longDev (0 : BitVec 64)).toNat :=
      ⟨⟨by decide, by decide⟩, rfl⟩
    obtain ⟨fd', hfd', -⟩ := rewriteBlock_ok longFd
      (putHeader (fun i => longFd.mem ((blockStart longDev (0 : BitVec 64)).toNat + i))
        ((0 : BitVec 64) - blockStart longDev 0).toNat buf.length crc) hcan h.block_le
    rw [hrewrite hholds, hfd']
    exact ⟨_, rfl⟩

/-- The length of the data is negative as `int`, and the CRC of no data is stored. -/
theorem not_fixedOnce_longDev : ∃ r, mtdFixtrx .little longEnv longDev longFd 0 (2 ^ 31) = .ok r ∧
    ¬FixedOnce .little longEnv longDev longFd.mem 0 (2 ^ 31) r := by
  have hnand : NandAligned longDev := fun htype => (by cases htype)
  obtain ⟨buf, hread⟩ := readGood_of_good longFd longDev_hasBlock (by decide) rfl
    (x := (0 : BitVec 64) + 12) (n := trxDataSize longDev (2 ^ 31)) [] (by decide) (Nat.lt_succ_self _)
  have hchecked : Checked .little longEnv longDev longFd 0 (2 ^ 31) buf :=
    { opens := rfl
      inside := by decide
      malloc := by decide
      pread := by decide
      fits := by decide
      magic := by decide
      mallocData := by decide
      read := hread }
  have hlen : buf.length = 2 ^ 31 + 16 := by
    rw [(hchecked.buf_eq hnand).2, longDev_data, List.length_append, List.length_replicate]
    rfl
  have hcrc : crc32buf buf = some (Crc.accumulate 0xffffffff (buf.take 0)) := by
    rw [crc32buf, hlen]
    rfl
  obtain ⟨r, hrun⟩ := longDev_ok hchecked hcrc
  refine ⟨r, hrun, fun h => ?_⟩
  obtain ⟨hstored, hsame⟩ := stored_crc hnand hrun
  -- the stored checksum is the initial value, the one of the data is 0
  have hfield := h.crc
  rw [← (hchecked.buf_eq hnand).2] at hstored hsame
  rw [hstored, hsame, if_neg (by omega), (hchecked.buf_eq hnand).2, longDev_data,
    Crc.accumulate_append] at hfield
  -- The register is zero behind the first four bytes and stays so.
  have hfirst : Crc.accumulate 0xffffffff [0xff, 0xff, 0xff, 0xff] = 0 := by decide +kernel
  have hzero : Crc.zeros (2 ^ 31 + 12) 0 = 0 := Crc.zeros_eq_zero.mpr rfl
  rw [hfirst] at hfield
  rw [Crc.zeros] at hzero
  rw [hzero] at hfield
  exact absurd hfield (by decide)

end HandsomeMod.Native.MtdFix
