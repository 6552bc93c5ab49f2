import HandsomeMod.ForStd.Parity
import HandsomeMod.Native.NandEcc

/-!
# One bit is corrected and two are detected

Each bit of the three registers is a parity of the bits that are set in the block, for those whose
number has some bit or has it not. The code has so a pair of parities for each of the eleven bits of a
bit's number. One changed bit changes one parity of each pair, and two changed bits change both or none.
-/

namespace HandsomeMod.Native.NandEcc

open ForStd

variable {dat dat' : Mem}

/-- The bits that are set in a block: the number of the byte and that in the byte. -/
def ones (dat : Mem) : Finset (Fin 256 × Fin 8) :=
  Finset.univ.filter fun x => (dat x.1).toNat.testBit x.2 = true

/-- The bits in which two blocks differ. -/
def diffBits (dat dat' : Mem) : Finset (Fin 256 × Fin 8) :=
  Finset.univ.filter fun x => (dat x.1).toNat.testBit x.2 ≠ (dat' x.1).toNat.testBit x.2

/-- The bits that differ are those set in one of the blocks. -/
private theorem diffBits_eq (dat dat' : Mem) : diffBits dat dat' = symmDiff (ones dat) (ones dat')
    := by
  ext x
  simp only [diffBits, ones, Finset.mem_symmDiff, Finset.mem_filter, Finset.mem_univ, true_and]
  cases (dat x.1).toNat.testBit x.2 <;> cases (dat' x.1).toNat.testBit x.2 <;> decide

/-! ### The table -/

/-- The bits that are set in a byte. -/
def byteOnes (b : UInt8) : Finset (Fin 8) := Finset.univ.filter fun k => b.toNat.testBit k = true

/-- The entry for a byte. -/
def entry (b : UInt8) : UInt8 := nandEccPrecalcTable.getD b.toNat 0

/-- The entries for the bits of a byte. -/
def bitEntries : List UInt8 := [0x55, 0x56, 0x59, 0x5a, 0x65, 0x66, 0x69, 0x6a]

/-- The table is linear: an entry is the sum of those for the bits that are set. -/
private theorem nandEccPrecalcTable_eq : nandEccPrecalcTable = (List.range 256).map fun n =>
    bitEntries.zipIdx.foldr (fun x acc => if n.testBit x.2 then x.1 ^^^ acc else acc) 0 := by
  decide +kernel

/-- A bit of a sum of entries. -/
private theorem testBit_foldr_entries (l : List (UInt8 × Nat)) (n j : Nat) :
    (l.foldr (fun x acc => if n.testBit x.2 then x.1 ^^^ acc else acc) 0 : UInt8).toNat.testBit j =
      l.foldr (fun x acc => n.testBit x.2 && x.1.toNat.testBit j ^^ acc) false := by
  induction l with
  | nil => exact Nat.zero_testBit j
  | cons x l ih =>
    rw [List.foldr_cons, List.foldr_cons, ← ih]
    cases n.testBit x.2 with
    | true => rw [if_pos rfl, Bool.true_and, UInt8.toNat_xor, Nat.testBit_xor]
    | false => rw [if_neg Bool.false_ne_true, Bool.false_and, Bool.false_xor]

/-- A bit of an entry is a parity of the byte. -/
private theorem testBit_entry (b : UInt8) {j : Nat} {p : Fin 8 → Bool}
    (hp : ∀ k : Fin 8, (bitEntries.getD k 0).toNat.testBit j = p k) :
    (entry b).toNat.testBit j = parity (byteOnes b) p := by
  have hb : b.toNat < 256 := b.toNat_lt
  have huniv : (Finset.univ : Finset (Fin 8)) = (List.finRange 8).toFinset := rfl
  -- the table folds the bits of the byte
  have hentry : (entry b).toNat.testBit j =
      bitEntries.zipIdx.foldr (fun x acc => b.toNat.testBit x.2 && x.1.toNat.testBit j ^^ acc) false := by
    rw [← testBit_foldr_entries, entry, nandEccPrecalcTable_eq,
      List.getD_eq_getElem _ _ (by simpa using hb), List.getElem_map, List.getElem_range]
  -- and so does the parity of its ones
  have hparity : parity (byteOnes b) p = (List.finRange 8).foldr
      (fun k acc => b.toNat.testBit k.val && p k ^^ acc) false := by
    rw [byteOnes, huniv]
    exact parity_filter_toFinset (List.nodup_finRange 8) (fun k => b.toNat.testBit k.val) p
  rw [hentry, hparity, ← funext hp]
  rfl

/-- The test of bit 6. -/
private theorem and_bit6 (b : UInt8) : b &&& 0x40 ≠ 0 ↔ b.toNat.testBit 6 = true := by
  have hand : (b &&& 0x40).toNat = b.toNat &&& 2 ^ 6 := UInt8.toNat_and b 0x40
  rw [ne_eq, ← UInt8.toNat_inj, hand, Nat.and_two_pow]
  cases b.toNat.testBit 6 <;> decide

/-- What the table says about a byte: the parity of its bits, and for each of the three bits of a
    position the parities of those where it is set and where it is not. -/
theorem entry_spec (b : UInt8) :
    (entry b &&& 0x40 ≠ 0 ↔ parity (byteOnes b) (fun _ => true) = true) ∧
    ∀ k : Fin 3, (entry b).toNat.testBit (2 * k + 1) = parity (byteOnes b) (fun i => i.val.testBit k) ∧
      (entry b).toNat.testBit (2 * k) = parity (byteOnes b) (fun i => !i.val.testBit k) := by
  constructor
  · rw [and_bit6, testBit_entry b (p := fun _ => true) (by decide)]
  · intro k
    have hset : ∀ k : Fin 3, ∀ i : Fin 8,
        (bitEntries.getD i 0).toNat.testBit (2 * k + 1) = i.val.testBit k := by decide
    have hclear : ∀ k : Fin 3, ∀ i : Fin 8,
        (bitEntries.getD i 0).toNat.testBit (2 * k) = !i.val.testBit k := by decide
    exact ⟨testBit_entry b (hset k), testBit_entry b (hclear k)⟩

/-! ### The loop -/

/-- A bit of a sum of bytes. -/
private theorem testBit_xor (a b : UInt8) (k : Nat) :
    (a ^^^ b).toNat.testBit k = (a.toNat.testBit k ^^ b.toNat.testBit k) := by
  rw [UInt8.toNat_xor, Nat.testBit_xor]

/-- A bit of an inverted byte. -/
private theorem testBit_not (a : UInt8) {k : Nat} (hk : k < 8) :
    (~~~ a).toNat.testBit k = !a.toNat.testBit k := by
  have h : (~~~ a.toBitVec).getLsbD k = _ := BitVec.getLsbD_not
  rw [decide_eq_true hk, Bool.true_and] at h
  exact h

/-- The bits that are set in the first bytes. -/
def firstOnes (dat : Mem) (n : Nat) : Finset (Fin 256 × Fin 8) := (ones dat).filter (·.1.val < n)

/-- The bits that are set in the first bytes. -/
private theorem mem_firstOnes {n : Nat} {x : Fin 256 × Fin 8} :
    x ∈ firstOnes dat n ↔ (dat x.1).toNat.testBit x.2 = true ∧ x.1.val < n := by
  simp only [firstOnes, ones, Finset.mem_filter, Finset.mem_univ, true_and]

/-- One more byte adds its bits. -/
private theorem firstOnes_succ (dat : Mem) (n : Fin 256) : firstOnes dat (n + 1) =
    firstOnes dat n ∪ (byteOnes (dat n)).map (.sectR n (Fin 8)) := by
  ext x
  rw [Finset.mem_union, mem_firstOnes, mem_firstOnes, Finset.mem_map]
  constructor
  · rintro ⟨hbit, hlt⟩
    rcases Nat.lt_succ_iff_lt_or_eq.mp hlt with hlt | heq
    · exact .inl ⟨hbit, hlt⟩
    · have heq : x.1 = n := Fin.ext heq
      exact .inr ⟨x.2, by simpa [byteOnes, ← heq] using hbit, Prod.ext heq.symm rfl⟩
  · rintro (⟨hbit, hlt⟩ | ⟨b, hb, rfl⟩)
    · exact ⟨hbit, Nat.lt_succ_of_lt hlt⟩
    · exact ⟨(Finset.mem_filter.mp hb).2, Nat.lt_succ_self _⟩

/-- They are new. -/
private theorem disjoint_firstOnes (dat : Mem) (n : Fin 256) :
    Disjoint (firstOnes dat n) ((byteOnes (dat n)).map (.sectR n (Fin 8))) := by
  simp only [Finset.disjoint_left, mem_firstOnes, Finset.mem_map]
  rintro x ⟨-, hlt⟩ ⟨b, -, hb⟩
  have hfst : n = x.1 := congrArg Prod.fst hb
  rw [hfst] at hlt
  exact Nat.lt_irrefl _ hlt

/-- The next byte brings in the parity of its bits. -/
private theorem parity_firstOnes_succ (dat : Mem) (n : Fin 256) (p : Fin 256 × Fin 8 → Bool) :
    parity (firstOnes dat (n + 1)) p =
      (parity (firstOnes dat n) p ^^ parity (byteOnes (dat n)) fun b => p (n, b)) := by
  rw [firstOnes_succ, parity_union (disjoint_firstOnes dat n), parity_map]
  rfl

/-- Each bit of a register is a parity of the bits that were read. -/
structure Inv (dat : Mem) (n : Nat) (r : EccRegs) : Prop where
  reg1 (k : Fin 3) :
    r.reg1.toNat.testBit (2 * k + 1) = parity (firstOnes dat n) (fun x => x.2.val.testBit k) ∧
      r.reg1.toNat.testBit (2 * k) = parity (firstOnes dat n) (fun x => !x.2.val.testBit k)
  reg2 (k : Fin 8) :
    r.reg2.toNat.testBit k = parity (firstOnes dat n) (fun x => !x.1.val.testBit k)
  reg3 (k : Fin 8) :
    r.reg3.toNat.testBit k = parity (firstOnes dat n) (fun x => x.1.val.testBit k)

/-- The lower six bits are kept. -/
private theorem testBit_mask (a : UInt8) {k : Nat} (hk : k < 6) :
    (a &&& 0x3f).toNat.testBit k = a.toNat.testBit k := by
  have hmask : (0x3f : UInt8).toNat = 2 ^ 6 - 1 := rfl
  rw [UInt8.toNat_and, hmask, Nat.and_two_pow_sub_one_eq_mod, Nat.testBit_mod_two_pow,
    decide_eq_true hk, Bool.true_and]

/-- A parity of a byte's bits, all of which or none are counted. -/
private theorem parity_const (s : Finset (Fin 8)) (b : Bool) :
    parity s (fun _ => b) = (b && parity s fun _ => true) := by
  cases b
  · rw [parity_false, Bool.false_and]
  · rw [Bool.true_and]

/-- A turn of the loop adds the parities of its byte. -/
theorem Inv.turn {r : EccRegs} {n : Fin 256} (h : Inv dat n r) :
    Inv dat (n + 1) (eccTurn dat r n) := by
  obtain ⟨hall, hpair⟩ := entry_spec (dat n)
  have hn : (UInt8.ofNat n).toNat = n := UInt8.toNat_ofNat_of_lt' n.isLt
  have hreg1 : (eccTurn dat r n).reg1 = r.reg1 ^^^ (entry (dat n) &&& 0x3f) := by
    rw [eccTurn]
    split <;> rfl
  -- a byte of odd weight flips the lines of its number, one of even weight none
  have hreg2 : ∀ k : Fin 8, (eccTurn dat r n).reg2.toNat.testBit k =
      (r.reg2.toNat.testBit k ^^ parity (byteOnes (dat n)) fun _ => !n.val.testBit k) := by
    intro k
    rw [parity_const, eccTurn]
    split
    · next hset =>
      rw [hall.mp hset, testBit_xor, testBit_not _ k.isLt, hn, Bool.and_true]
    · next hset =>
      rw [Bool.eq_false_iff.mpr fun hp => hset (hall.mpr hp), Bool.and_false, Bool.xor_false]
  have hreg3 : ∀ k : Fin 8, (eccTurn dat r n).reg3.toNat.testBit k =
      (r.reg3.toNat.testBit k ^^ parity (byteOnes (dat n)) fun _ => n.val.testBit k) := by
    intro k
    rw [parity_const, eccTurn]
    split
    · next hset =>
      rw [hall.mp hset, testBit_xor, hn, Bool.and_true]
    · next hset =>
      rw [Bool.eq_false_iff.mpr fun hp => hset (hall.mpr hp), Bool.and_false, Bool.xor_false]
  -- the turn adds the ones of one byte to those before it
  constructor
  · intro k
    rw [hreg1, testBit_xor, testBit_xor, testBit_mask _ (by omega), testBit_mask _ (by omega),
      (hpair k).1, (hpair k).2, (h.reg1 k).1, (h.reg1 k).2, parity_firstOnes_succ,
      parity_firstOnes_succ]
    exact ⟨rfl, rfl⟩
  · intro k
    rw [hreg2, h.reg2, parity_firstOnes_succ]
  · intro k
    rw [hreg3, h.reg3, parity_firstOnes_succ]

/-- Behind any number of turns the registers hold the parities. -/
private theorem inv_eccRegs (dat : Mem) {n : Nat} (hn : n ≤ 256) : Inv dat n (eccRegs dat n) := by
  induction n with
  | zero =>
    have hempty : firstOnes dat 0 = ∅ := Finset.filter_false_of_mem fun x _ => Nat.not_lt_zero _
    refine ⟨fun k => ?_, fun k => ?_, fun k => ?_⟩ <;> simp [eccRegs, hempty, parity_empty]
  | succ n ih =>
    rw [eccRegs, List.range_succ, List.foldl_append]
    exact (ih (by omega)).turn (n := ⟨n, by omega⟩)

/-- At the end all bits were read. -/
private theorem firstOnes_all (dat : Mem) : firstOnes dat 256 = ones dat :=
  Finset.filter_true_of_mem fun x _ => x.1.isLt

/-! ### The code -/

/-- A bit of a byte as a number and as a vector. -/
private theorem testBit_toNat (b : UInt8) (k : Nat) : b.toNat.testBit k = b.toBitVec.getLsbD k :=
  BitVec.testBit_toNat _

/-- The bits of `tmp1` are those of the higher halves, in pairs. -/
private theorem testBit_tmp1 (r : EccRegs) (j : Fin 4) :
    (tmp1 r).toNat.testBit (2 * j + 1) = r.reg3.toNat.testBit (j + 4) ∧
      (tmp1 r).toNat.testBit (2 * j) = r.reg2.toNat.testBit (j + 4) := by
  simp only [testBit_toNat]
  fin_cases j <;> simp [tmp1]

/-- The bits of `tmp2` are those of the lower halves, in pairs. -/
private theorem testBit_tmp2 (r : EccRegs) (j : Fin 4) :
    (tmp2 r).toNat.testBit (2 * j + 1) = r.reg3.toNat.testBit j ∧
      (tmp2 r).toNat.testBit (2 * j) = r.reg2.toNat.testBit j := by
  simp only [testBit_toNat]
  fin_cases j <;> simp [tmp2]

/-- The third byte of the code has the bits inverted, above two ones. -/
private theorem testBit_code2 (b : UInt8) (k : Fin 6) :
    (~~~ b <<< 2 ||| 0x03).toNat.testBit (k + 2) = !b.toNat.testBit k := by
  simp only [testBit_toNat]
  fin_cases k <;> simp

/-- The two bits of a byte that are a pair. -/
def bitPair (b : UInt8) (j : Nat) : Bool × Bool := (b.toNat.testBit (2 * j + 1), b.toNat.testBit (2 * j))

/-- The byte of a code with the lower halves of the line parities. -/
def EccCode.lowLine (smc : Bool) (c : EccCode) : UInt8 := if smc then c.code0 else c.code1

/-- The byte with the upper halves. -/
def EccCode.highLine (smc : Bool) (c : EccCode) : UInt8 := if smc then c.code1 else c.code0

/-- The eleven pairs of a code: three of the columns, and eight of the lines. -/
def EccCode.pair (smc : Bool) (c : EccCode) (k : Nat) : Bool × Bool :=
  if k < 3 then bitPair c.code2 (k + 1)
  else if k < 7 then bitPair (c.lowLine smc) (k - 3)
  else bitPair (c.highLine smc) (k - 7)

/-- What has changed between two codes. -/
def EccCode.xor (c c' : EccCode) : EccCode where
  code0 := c.code0 ^^^ c'.code0
  code1 := c.code1 ^^^ c'.code1
  code2 := c.code2 ^^^ c'.code2

/-- A bit of a bit's number: the lower three are those of the number in the byte. -/
def numberBit (k : Nat) (x : Fin 256 × Fin 8) : Bool :=
  if k < 3 then x.2.val.testBit k else x.1.val.testBit (k - 3)

/-- A pair of bits of an inverted byte. -/
private theorem bitPair_not (b : UInt8) {j : Nat} (hj : j < 4) :
    bitPair (~~~ b) j = (!b.toNat.testBit (2 * j + 1), !b.toNat.testBit (2 * j)) := by
  rw [bitPair, testBit_not b (by omega), testBit_not b (by omega)]

/-- Each pair of the code has both parities of a bit of the number, inverted. -/
private theorem pair_nandCalculateEcc (smc : Bool) (dat : Mem) {k : Nat} (hk : k < 11) :
    (nandCalculateEcc smc dat).pair smc k =
      (!parity (ones dat) (numberBit k), !parity (ones dat) fun x => !numberBit k x) := by
  obtain ⟨hreg1, hreg2, hreg3⟩ := inv_eccRegs dat (le_refl 256)
  rw [firstOnes_all] at hreg1 hreg2 hreg3
  have hlow : (nandCalculateEcc smc dat).lowLine smc = ~~~ tmp2 (eccRegs dat 256) := by
    cases smc <;> rfl
  have hhigh : (nandCalculateEcc smc dat).highLine smc = ~~~ tmp1 (eccRegs dat 256) := by
    cases smc <;> rfl
  rw [EccCode.pair, hlow, hhigh]
  by_cases hcol : k < 3
  · -- a bit of the number in the byte
    have hnumber : numberBit k = fun x => x.2.val.testBit k := funext fun x => if_pos hcol
    have hupper := testBit_code2 (eccRegs dat 256).reg1 ⟨2 * k + 1, by omega⟩
    have hlower := testBit_code2 (eccRegs dat 256).reg1 ⟨2 * k, by omega⟩
    obtain ⟨hpos, hneg⟩ := hreg1 ⟨k, hcol⟩
    rw [if_pos hcol, hnumber, ← hpos, ← hneg, ← hupper, ← hlower]
    rfl
  · have hnumber : numberBit k = fun x => x.1.val.testBit (k - 3) := funext fun x => if_neg hcol
    have hpos := hreg3 ⟨k - 3, by omega⟩
    have hneg := hreg2 ⟨k - 3, by omega⟩
    rw [if_neg hcol, hnumber]
    by_cases hlowLine : k < 7
    · -- a lower bit of the byte's number
      obtain ⟨hupper, hlower⟩ := testBit_tmp2 (eccRegs dat 256) ⟨k - 3, by omega⟩
      rw [if_pos hlowLine, bitPair_not _ (by omega), hupper, hlower, hpos, hneg]
    · -- an upper bit
      obtain ⟨hupper, hlower⟩ := testBit_tmp1 (eccRegs dat 256) ⟨k - 7, by omega⟩
      have hsub : k - 7 + 4 = k - 3 := by omega
      simp only [hsub] at hupper hlower
      rw [if_neg hlowLine, bitPair_not _ (by omega), hupper, hlower, hpos, hneg]

/-- A pair of bits of a sum. -/
private theorem bitPair_xor (b b' : UInt8) (j : Nat) : bitPair (b ^^^ b') j =
    ((bitPair b j).1 ^^ (bitPair b' j).1, (bitPair b j).2 ^^ (bitPair b' j).2) := by
  rw [bitPair, testBit_xor, testBit_xor, bitPair, bitPair]

/-- A pair of a sum of codes. -/
private theorem pair_xor (smc : Bool) (c c' : EccCode) (k : Nat) : (c.xor c').pair smc k =
    ((c.pair smc k).1 ^^ (c'.pair smc k).1, (c.pair smc k).2 ^^ (c'.pair smc k).2) := by
  have hlow : (c.xor c').lowLine smc = c.lowLine smc ^^^ c'.lowLine smc := by
    cases smc <;> rfl
  have hhigh : (c.xor c').highLine smc = c.highLine smc ^^^ c'.highLine smc := by
    cases smc <;> rfl
  rw [EccCode.pair, EccCode.pair, EccCode.pair, hlow, hhigh]
  split
  · exact bitPair_xor _ _ _
  · split
    · exact bitPair_xor _ _ _
    · exact bitPair_xor _ _ _

/-- A changed pair has the parities of the bits in which the blocks differ. -/
private theorem pair_xor_nandCalculateEcc (smc : Bool) (dat dat' : Mem) {k : Nat} (hk : k < 11) :
    ((nandCalculateEcc smc dat).xor (nandCalculateEcc smc dat')).pair smc k =
      (parity (diffBits dat dat') (numberBit k), parity (diffBits dat dat') fun x => !numberBit k x) := by
  rw [pair_xor, pair_nandCalculateEcc smc dat hk, pair_nandCalculateEcc smc dat' hk, diffBits_eq,
    parity_symmDiff, parity_symmDiff, Bool.not_xor_not, Bool.not_xor_not]

/-! ### One bit and two bits -/

/-- One bit of each pair is set. -/
def EccCode.IsOneBit (smc : Bool) (c : EccCode) : Prop :=
  ∀ k < 11, (c.pair smc k).1 ≠ (c.pair smc k).2

/-- The upper bits of the pairs are the number of a bit, and that of its byte. -/
def EccCode.Encodes (smc : Bool) (c : EccCode) (byte : Fin 256) (bit : Fin 8) : Prop :=
  (∀ k < 3, (c.pair smc k).1 = bit.val.testBit k) ∧ ∀ k < 8, (c.pair smc (k + 3)).1 = byte.val.testBit k

/-- A bit that differs changes one of each pair. -/
theorem isOneBit_of_diffBits {smc : Bool} {x : Fin 256 × Fin 8} (h : diffBits dat dat' = {x}) :
    ((nandCalculateEcc smc dat).xor (nandCalculateEcc smc dat')).IsOneBit smc := by
  intro k hk
  rw [pair_xor_nandCalculateEcc smc dat dat' hk, h, parity_singleton, parity_singleton]
  cases numberBit k x <;> decide

/-- The changed halves spell the place of the bit. -/
theorem encodes_of_diffBits {smc : Bool} {byte : Fin 256} {bit : Fin 8}
    (h : diffBits dat dat' = {(byte, bit)}) :
    ((nandCalculateEcc smc dat).xor (nandCalculateEcc smc dat')).Encodes smc byte bit := by
  constructor
  · intro k hk
    rw [pair_xor_nandCalculateEcc smc dat dat' (by omega), h, parity_singleton, numberBit, if_pos hk]
  · intro k hk
    rw [pair_xor_nandCalculateEcc smc dat dat' (by omega), h, parity_singleton, numberBit,
      if_neg (by omega), Nat.add_sub_cancel]

/-- Two changed bits change a pair as their numbers differ. -/
theorem pair_of_two (smc : Bool) {x y : Fin 256 × Fin 8} (hne : x ≠ y) (h : diffBits dat dat' = {x, y})
    {k : Nat} (hk : k < 11) :
    ((nandCalculateEcc smc dat).xor (nandCalculateEcc smc dat')).pair smc k =
      (numberBit k x ^^ numberBit k y, numberBit k x ^^ numberBit k y) := by
  rw [pair_xor_nandCalculateEcc smc dat dat' hk, h, parity_pair hne, parity_pair hne, Bool.not_xor_not]

/-- Two bits have different numbers. -/
theorem exists_numberBit_ne {x y : Fin 256 × Fin 8} (hne : x ≠ y) :
    ∃ k < 11, numberBit k x ≠ numberBit k y := by
  by_contra hall
  push Not at hall
  refine hne (Prod.ext (Fin.ext (Nat.eq_of_testBit_eq fun k => ?_))
    (Fin.ext (Nat.eq_of_testBit_eq fun k => ?_)))
  -- the numbers of the bytes have the bits from 3 on, those of the bits the first three
  · by_cases hk : k < 8
    · have hbit := hall (k + 3) (by omega)
      rwa [numberBit, numberBit, if_neg (by omega), if_neg (by omega), Nat.add_sub_cancel] at hbit
    · have hlarge : 2 ^ 8 ≤ 2 ^ k := Nat.pow_le_pow_right (by decide) (by omega)
      rw [Nat.testBit_lt_two_pow (by omega), Nat.testBit_lt_two_pow (by omega)]
  · by_cases hk : k < 3
    · have hbit := hall k (by omega)
      rwa [numberBit, numberBit, if_pos hk, if_pos hk] at hbit
    · have hlarge : 2 ^ 3 ≤ 2 ^ k := Nat.pow_le_pow_right (by decide) (by omega)
      rw [Nat.testBit_lt_two_pow (by omega), Nat.testBit_lt_two_pow (by omega)]

/-- Equal codes differ in nothing. -/
theorem pair_xor_self (smc : Bool) (c : EccCode) (k : Nat) :
    (c.xor c).pair smc k = (false, false) := by
  rw [pair_xor, Bool.xor_self, Bool.xor_self]

/-- One changed bit is found from the codes, and two are told from it and from none. -/
theorem nandCalculateEcc_corrects (smc : Bool) (dat dat' : Mem) :
    (∀ byte bit, diffBits dat dat' = {(byte, bit)} →
      ((nandCalculateEcc smc dat).xor (nandCalculateEcc smc dat')).IsOneBit smc ∧
      ((nandCalculateEcc smc dat).xor (nandCalculateEcc smc dat')).Encodes smc byte bit) ∧
    ((diffBits dat dat').card = 2 → nandCalculateEcc smc dat ≠ nandCalculateEcc smc dat' ∧
      ¬ ((nandCalculateEcc smc dat).xor (nandCalculateEcc smc dat')).IsOneBit smc) := by
  constructor
  · intro byte bit h
    exact ⟨isOneBit_of_diffBits h, encodes_of_diffBits h⟩
  · intro hcard
    obtain ⟨x, y, hne, h⟩ := Finset.card_eq_two.mp hcard
    constructor
    -- two bits that differ have numbers that differ in a line
    · intro heq
      obtain ⟨k, hk, hdiff⟩ := exists_numberBit_ne hne
      have hpair := pair_of_two smc hne h hk
      rw [heq, pair_xor_self] at hpair
      exact hdiff (bne_eq_false_iff_eq.mp (Prod.mk.inj hpair).1.symm)
    -- the lines of two bits do not form a pair
    · intro hone
      have hpair := hone 0 (by decide)
      rw [pair_of_two smc hne h (by decide)] at hpair
      exact hpair rfl

/-- A block of zeroes. -/
def zeroBlock : Mem := fun _ => 0

/-- One bit and two bits that differ from a block of zeros. -/
theorem nandCalculateEcc_corrects_zeroBlock :
    (((nandCalculateEcc false zeroBlock).xor
        (nandCalculateEcc false (Function.update zeroBlock 3 0x20))).IsOneBit false ∧
      ((nandCalculateEcc false zeroBlock).xor
        (nandCalculateEcc false (Function.update zeroBlock 3 0x20))).Encodes false 3 5) ∧
    (nandCalculateEcc false zeroBlock ≠ nandCalculateEcc false (Function.update zeroBlock 3 0x21) ∧
      ¬ ((nandCalculateEcc false zeroBlock).xor
        (nandCalculateEcc false (Function.update zeroBlock 3 0x21))).IsOneBit false) :=
  ⟨(nandCalculateEcc_corrects false zeroBlock (Function.update zeroBlock 3 0x20)).1 3 5
      (by decide +kernel),
    (nandCalculateEcc_corrects false zeroBlock (Function.update zeroBlock 3 0x21)).2
      (by decide +kernel)⟩

end HandsomeMod.Native.NandEcc
