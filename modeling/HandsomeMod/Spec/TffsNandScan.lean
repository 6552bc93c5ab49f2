import HandsomeMod.ForStd.Except
import HandsomeMod.Native.TffsNand

/-!
# The scan for bad sectors

When `scan_mtd` stays inside its map, marks only sectors of the device, and marks of a block with a
valid header exactly its first sector, the sectors that its header lists and those whose OOB area
says that they are bad.
-/

namespace HandsomeMod.Native.TffsNand

open ForStd

/-! ### The map -/

/-- A sector is marked as bad. -/
def Sectors.Marked (s : Sectors) (n : Nat) : Prop := n / 8 < s.numBytes ∧ bit s.sectors n = false

/-- The map with one more mark. -/
def Sectors.mark (s : Sectors) (n : Nat) : Sectors :=
  { s with
    sectors := Function.update s.sectors (n / 8)
      (s.sectors (n / 8) &&& ~~~(0x80 >>> UInt8.ofNat (n % 8))) }

/-- A sector of the map is marked. -/
private theorem sectorMarkBad_of_lt {s : Sectors} {n : Nat} (h : n / 8 < s.numBytes) :
    sectorMarkBad s n = .ok (s.mark n) := by
  rw [sectorMarkBad, if_pos h]
  rfl

/-- Another one is written outside. -/
private theorem sectorMarkBad_of_le {s : Sectors} {n : Nat} (h : ¬ n / 8 < s.numBytes) :
    sectorMarkBad s n = .error .outOfBounds := by
  rw [sectorMarkBad, if_neg h]

/-- The mask of a sector. -/
private theorem toNat_bitMask : ∀ k < 8, (0x80 >>> UInt8.ofNat k : UInt8).toNat = 2 ^ (7 - k)
    := by decide

/-- Clearing a bit keeps the others. -/
private theorem testBit_clearMask : ∀ k < 8, ∀ j < 8,
    (~~~(0x80 >>> UInt8.ofNat k) : UInt8).toNat.testBit (7 - j) = decide (j ≠ k) := by decide

/-- A sector of the map is read. -/
private theorem sectorGetGood_of_lt {s : Sectors} {n : Nat} (h : n / 8 < s.numBytes) :
    sectorGetGood s n = .ok (bit s.sectors n) := by
  have hmask := toNat_bitMask (n % 8) (Nat.mod_lt n (by omega))
  have hand : (s.sectors (n / 8) &&& (0x80 >>> UInt8.ofNat (n % 8)) != 0) = bit s.sectors n := by
    rw [bit, Bool.eq_iff_iff, bne_iff_ne, Ne, ← UInt8.toNat_inj, UInt8.toNat_and, hmask,
      Nat.and_two_pow, UInt8.toNat_zero]
    cases (s.sectors (n / 8)).toNat.testBit (7 - n % 8) <;> simp
  rw [sectorGetGood, if_pos h, hand]

/-- Marking clears a bit of a byte. -/
private theorem sectors_mark (s : Sectors) (n : Nat) : (s.mark n).sectors =
    Function.update s.sectors (n / 8)
      (s.sectors (n / 8) &&& ~~~(0x80 >>> UInt8.ofNat (n % 8))) := rfl

/-- Marking clears the bit of its sector. -/
private theorem bit_mark (s : Sectors) (n m : Nat) :
    bit (s.mark n).sectors m = (bit s.sectors m && decide (m ≠ n)) := by
  rw [bit, bit, sectors_mark]
  by_cases hbyte : m / 8 = n / 8
  · -- the other bits of the byte stay
    have hmask := testBit_clearMask (n % 8) (Nat.mod_lt n (by omega)) (m % 8)
      (Nat.mod_lt m (by omega))
    have hne : (m % 8 ≠ n % 8) ↔ m ≠ n := by omega
    rw [hbyte, Function.update_self, UInt8.toNat_and, Nat.testBit_and, hmask]
    congr 1
    exact decide_eq_decide.mpr hne
  · have hne : m ≠ n := fun h => hbyte (by rw [h])
    rw [Function.update_of_ne hbyte, decide_eq_true hne, Bool.and_true]

/-- One more sector is marked. -/
private theorem marked_mark {s : Sectors} {n : Nat} (h : n / 8 < s.numBytes) (m : Nat) :
    (s.mark n).Marked m ↔ s.Marked m ∨ m = n := by
  rw [Sectors.Marked, bit_mark, Sectors.Marked]
  have hbytes : (s.mark n).numBytes = s.numBytes := rfl
  rw [hbytes, Bool.and_eq_false_iff, decide_eq_false_iff_not, not_not]
  constructor
  · rintro ⟨hlt, hbit | rfl⟩
    · exact .inl ⟨hlt, hbit⟩
    · exact .inr rfl
  · rintro (⟨hlt, hbit⟩ | rfl)
    · exact ⟨hlt, .inl hbit⟩
    · exact ⟨h, .inr rfl⟩

/-- A part of the scan marks the sectors `l`, all of them inside the map. -/
structure Marks (s : Sectors) (l : List Nat) (s' : Sectors) : Prop where
  inside : ∀ n ∈ l, n / 8 < s.numBytes
  numSectors_eq : s'.numSectors = s.numSectors
  marked_iff : ∀ n, s'.Marked n ↔ s.Marked n ∨ n ∈ l

/-- Marking keeps the size of the map. -/
theorem Marks.numBytes_eq {s s' : Sectors} {l : List Nat} (h : Marks s l s') :
    s'.numBytes = s.numBytes := by
  rw [Sectors.numBytes, Sectors.numBytes, h.numSectors_eq]

/-- Nothing is marked. -/
theorem Marks.nil (s : Sectors) : Marks s [] s := ⟨by simp, rfl, by simp⟩

/-- Sectors that are marked one after the other. -/
theorem Marks.trans {s s' s'' : Sectors} {l l' : List Nat} (h : Marks s l s')
    (h' : Marks s' l' s'') : Marks s (l ++ l') s'' := by
  refine ⟨fun n hn => ?_, h'.numSectors_eq.trans h.numSectors_eq, fun n => ?_⟩
  · rcases List.mem_append.mp hn with hn | hn
    · exact h.inside n hn
    · rw [← h.numBytes_eq]
      exact h'.inside n hn
  · rw [h'.marked_iff, h.marked_iff, List.mem_append, or_assoc]

/-- A mark that is there already -/
theorem Marks.drop {s s' : Sectors} {n : Nat} (h : Marks s [n] s') (hn : s.Marked n) :
    Marks s [] s' := by
  refine ⟨by simp, h.numSectors_eq, fun m => ?_⟩
  rw [h.marked_iff, List.mem_singleton]
  constructor
  · rintro (hm | rfl)
    · exact .inl hm
    · exact .inl hn
  · rintro (hm | hm)
    · exact .inl hm
    · cases hm

/-- A sector was marked. -/
private theorem sectorMarkBad_ok {s s' : Sectors} {n : Nat} (h : sectorMarkBad s n = .ok s') :
    Marks s [n] s' := by
  by_cases hlt : n / 8 < s.numBytes
  · rw [sectorMarkBad_of_lt hlt] at h
    obtain rfl := Except.ok.inj h
    exact ⟨by simpa using hlt, rfl, fun m => by rw [marked_mark hlt, List.mem_singleton]⟩
  · rw [sectorMarkBad_of_le hlt] at h
    cases h

/-- A sector was read. -/
private theorem sectorGetGood_ok {s : Sectors} {n : Nat} {good : Bool}
    (h : sectorGetGood s n = .ok good) : n / 8 < s.numBytes ∧ good = bit s.sectors n := by
  by_cases hlt : n / 8 < s.numBytes
  · rw [sectorGetGood_of_lt hlt] at h
    exact ⟨hlt, (Except.ok.inj h).symm⟩
  · rw [sectorGetGood, if_neg hlt] at h
    cases h

/-! ### A sector -/

variable {c : Cfg} {dev : Device}

/-- The fields of a header. -/
def fields (c : Cfg) (readbuf : Mem) (sector left i : Nat) : List Nat :=
  (List.range' i left).map (badSector c readbuf sector)

/-- The sectors that a header lists were marked. -/
private theorem markHeader_ok {readbuf : Mem} {sector left i : Nat} {s s' : Sectors}
    (h : markHeader c readbuf sector left i s = .ok s') :
    Marks s (fields c readbuf sector left i) s' := by
  induction left generalizing i s with
  | zero =>
    obtain rfl := Except.ok.inj h
    exact .nil s
  | succ left ih =>
    obtain ⟨s₁, hmark, hrest⟩ := bind_ok h
    exact (sectorMarkBad_ok hmark).trans (ih hrest)

/-- Listed sectors of the map are marked. -/
private theorem exists_markHeader {readbuf : Mem} {sector left i : Nat} {s : Sectors}
    (h : ∀ n ∈ fields c readbuf sector left i, n / 8 < s.numBytes) :
    ∃ s', markHeader c readbuf sector left i s = .ok s' := by
  induction left generalizing i s with
  | zero => exact ⟨s, rfl⟩
  | succ left ih =>
    obtain ⟨hhead, htail⟩ := List.forall_mem_cons.mp h
    rw [markHeader, sectorMarkBad_of_lt hhead, ok_bind]
    exact ih htail

/-- The block at `b` has a valid header. -/
def validBlock (c : Cfg) (dev : Device) (b : Nat) : Bool :=
  checkSector c dev b && (dev.readSector b).any (headerOk c)

/-- The sectors that the header of the block at `b` lists. -/
def listed (c : Cfg) (dev : Device) (b : Nat) : List Nat :=
  match dev.readSector b with
  | none => []
  | some readbuf => fields c readbuf b (readUint32 c readbuf 0x0c) 0

/-- A valid block has its header read. -/
private theorem checkBlock_of_valid {b : Nat} {readbuf : Mem} (h : validBlock c dev b = true)
    (hread : dev.readSector b = some readbuf) (s : Sectors) :
    checkBlock c dev b s = (do
      let s ← markHeader c readbuf b (readUint32 c readbuf 0x0c) 0 s
      .ok (true, s)) := by
  rw [validBlock, hread, Bool.and_eq_true, Option.any_some] at h
  rw [checkBlock, h.1, hread]
  simp only [h.2]
  rfl

/-- Another block has not. -/
private theorem checkBlock_of_not_valid {b : Nat} (h : validBlock c dev b = false) (s : Sectors) :
    checkBlock c dev b s = .ok (false, s) := by
  rw [checkBlock]
  rw [validBlock] at h
  cases hsector : checkSector c dev b with
  | false => rfl
  | true =>
    cases hread : dev.readSector b with
    | none => rfl
    | some readbuf =>
      rw [hsector, hread, Bool.true_and, Option.any_some] at h
      simp only [h]
      rfl

/-- What `check_block` marks. -/
def blockMarks (c : Cfg) (dev : Device) (b : Nat) : List Nat :=
  if validBlock c dev b then listed c dev b else []

/-- The first sector of a valid block can be read. -/
private theorem exists_readSector {b : Nat} (h : validBlock c dev b = true) :
    ∃ readbuf, dev.readSector b = some readbuf := by
  rw [validBlock, Bool.and_eq_true] at h
  cases hread : dev.readSector b with
  | none => rw [hread] at h; cases h.2
  | some readbuf => exact ⟨readbuf, rfl⟩

/-- What a checked block marks. -/
private theorem checkBlock_ok {b : Nat} {s s' : Sectors} {blockOk : Bool}
    (h : checkBlock c dev b s = .ok (blockOk, s')) :
    blockOk = validBlock c dev b ∧ Marks s (blockMarks c dev b) s' := by
  rw [blockMarks]
  cases hvalid : validBlock c dev b with
  | false =>
    rw [checkBlock_of_not_valid hvalid] at h
    obtain ⟨rfl, rfl⟩ := Prod.mk.inj (Except.ok.inj h)
    exact ⟨rfl, .nil s⟩
  -- a valid block has its list of bad sectors read
  | true =>
    obtain ⟨readbuf, hread⟩ := exists_readSector hvalid
    rw [checkBlock_of_valid hvalid hread] at h
    obtain ⟨s₁, hmark, heq⟩ := bind_ok h
    obtain ⟨rfl, rfl⟩ := Prod.mk.inj (Except.ok.inj heq)
    rw [if_pos rfl, listed, hread]
    exact ⟨rfl, markHeader_ok hmark⟩

/-- A block that lists sectors of the map is checked. -/
private theorem exists_checkBlock {b : Nat} {s : Sectors}
    (h : ∀ n ∈ blockMarks c dev b, n / 8 < s.numBytes) :
    ∃ r, checkBlock c dev b s = .ok r := by
  cases hvalid : validBlock c dev b with
  | false => exact ⟨_, checkBlock_of_not_valid hvalid s⟩
  | true =>
    obtain ⟨readbuf, hread⟩ := exists_readSector hvalid
    rw [blockMarks, hvalid, if_pos rfl, listed, hread] at h
    obtain ⟨s', hmark⟩ := exists_markHeader h
    rw [checkBlock_of_valid hvalid hread, hmark]
    exact ⟨_, rfl⟩

/-- A sector is the first one of an erase block. -/
def IsStart (dev : Device) (n : Nat) : Prop := n * tffsSectorSize % dev.erasesize.toNat = 0

instance (dev : Device) (n : Nat) : Decidable (IsStart dev n) :=
  inferInstanceAs (Decidable (n * tffsSectorSize % dev.erasesize.toNat = 0))

/-- `block_ok` behind a sector. -/
def nextOk (c : Cfg) (dev : Device) (n : Nat) (blockOk : Bool) : Bool :=
  if IsStart dev n then validBlock c dev n else blockOk

/-- What a turn of the scan marks. -/
def sectorMarks (c : Cfg) (dev : Device) (n : Nat) (blockOk : Bool) : List Nat :=
  if IsStart dev n then blockMarks c dev n ++ [n]
  else if !blockOk || !checkSector c dev n then [n] else []

/-- At the start of a block it is checked. -/
private theorem scanSector_start {n : Nat} (herase : dev.erasesize ≠ 0) (hstart : IsStart dev n)
    (blockOk : Bool) (s : Sectors) :
    scanSector c dev n blockOk s = (do
      let (blockOk, s) ← checkBlock c dev n s
      let s ← sectorMarkBad s n
      .ok (blockOk, s)) := by
  rw [scanSector, if_neg herase]
  exact if_pos hstart

/-- In a bad block all sectors are marked. -/
private theorem scanSector_skip {n : Nat} (herase : dev.erasesize ≠ 0) (hstart : ¬ IsStart dev n)
    (s : Sectors) :
    scanSector c dev n false s = (do
      let s ← sectorMarkBad s n
      .ok (false, s)) := by
  rw [scanSector, if_neg herase]
  exact if_neg hstart

/-- In a good block a sector is checked. -/
private theorem scanSector_sector {n : Nat} (herase : dev.erasesize ≠ 0) (hstart : ¬ IsStart dev n)
    (s : Sectors) :
    scanSector c dev n true s = (do
      let good ← sectorGetGood s n
      if !good || !checkSector c dev n then
        let s ← sectorMarkBad s n
        .ok (true, s)
      else .ok (true, s)) := by
  rw [scanSector, if_neg herase]
  exact if_neg hstart

/-- What a scanned sector marks. -/
private theorem scanSector_ok {n : Nat} {blockOk blockOk' : Bool} {s s' : Sectors}
    (h : scanSector c dev n blockOk s = .ok (blockOk', s')) :
    dev.erasesize ≠ 0 ∧ n / 8 < s.numBytes ∧ blockOk' = nextOk c dev n blockOk ∧
      Marks s (sectorMarks c dev n blockOk) s' := by
  have herase : dev.erasesize ≠ 0 := by
    intro herase
    rw [scanSector, if_pos herase] at h
    cases h
  rw [nextOk, sectorMarks]
  -- the start of a block marks what the header lists, and itself
  by_cases hstart : IsStart dev n
  · rw [scanSector_start herase hstart] at h
    rw [if_pos hstart, if_pos hstart]
    obtain ⟨⟨ok, s₁⟩, hblock, h⟩ := bind_ok h
    obtain ⟨s₂, hmark, h⟩ := bind_ok h
    obtain ⟨rfl, rfl⟩ := Prod.mk.inj (Except.ok.inj h)
    obtain ⟨hok, hmarks⟩ := checkBlock_ok hblock
    have hn := (sectorMarkBad_ok hmark).inside n (by simp)
    rw [hmarks.numBytes_eq] at hn
    exact ⟨herase, hn, hok, hmarks.trans (sectorMarkBad_ok hmark)⟩
  · rw [if_neg hstart, if_neg hstart]
    -- a sector of an unreadable block is marked, one of a readable block if its check fails
    cases blockOk with
    | false =>
      rw [scanSector_skip herase hstart] at h
      obtain ⟨s₁, hmark, h⟩ := bind_ok h
      obtain ⟨rfl, rfl⟩ := Prod.mk.inj (Except.ok.inj h)
      have hmarks := sectorMarkBad_ok hmark
      exact ⟨herase, hmarks.inside n (by simp), rfl, hmarks⟩
    | true =>
      rw [scanSector_sector herase hstart] at h
      obtain ⟨good, hgood, h⟩ := bind_ok h
      obtain ⟨hlt, rfl⟩ := sectorGetGood_ok hgood
      split at h
      · next hbad =>
        obtain ⟨s₁, hmark, h⟩ := bind_ok h
        obtain ⟨rfl, rfl⟩ := Prod.mk.inj (Except.ok.inj h)
        have hmarks := sectorMarkBad_ok hmark
        refine ⟨herase, hlt, rfl, ?_⟩
        cases hcheck : checkSector c dev n with
        | false => simpa using hmarks
        | true =>
          -- the header has marked the sector before
          rw [hcheck] at hbad
          exact hmarks.drop ⟨hlt, by simpa using hbad⟩
      · next hgood =>
        obtain ⟨rfl, rfl⟩ := Prod.mk.inj (Except.ok.inj h)
        have hcheck : checkSector c dev n = true := by
          simp only [Bool.or_eq_true, Bool.not_eq_true', not_or, Bool.not_eq_false] at hgood
          exact hgood.2
        rw [hcheck]
        exact ⟨herase, hlt, rfl, .nil s⟩

/-- A sector that marks sectors of the map is scanned. -/
private theorem exists_scanSector {n : Nat} {blockOk : Bool} {s : Sectors}
    (herase : dev.erasesize ≠ 0)
    (hn : n / 8 < s.numBytes) (h : ∀ m ∈ sectorMarks c dev n blockOk, m / 8 < s.numBytes) :
    ∃ r, scanSector c dev n blockOk s = .ok r := by
  -- the first sector of a block, one of a bad block, or one that is checked by itself
  by_cases hstart : IsStart dev n
  · rw [sectorMarks, if_pos hstart] at h
    obtain ⟨⟨ok, s₁⟩, hblock⟩ := exists_checkBlock fun m hm => h m (List.mem_append_left _ hm)
    have hn₁ : n / 8 < s₁.numBytes := by rwa [(checkBlock_ok hblock).2.numBytes_eq]
    rw [scanSector_start herase hstart, hblock, ok_bind]
    simp only [sectorMarkBad_of_lt hn₁, ok_bind]
    exact ⟨_, rfl⟩
  · cases blockOk with
    | false =>
      rw [scanSector_skip herase hstart, sectorMarkBad_of_lt hn]
      exact ⟨_, rfl⟩
    | true =>
      rw [scanSector_sector herase hstart, sectorGetGood_of_lt hn, ok_bind, sectorMarkBad_of_lt hn]
      split
      · exact ⟨_, rfl⟩
      · exact ⟨_, rfl⟩

/-! ### The scan -/

/-- `block_ok` in front of a sector. -/
def okBefore (c : Cfg) (dev : Device) : Nat → Bool
  | 0 => false
  | n + 1 => nextOk c dev n (okBefore c dev n)

/-- What the scan marks when it is at sector `n`. -/
def marksAt (c : Cfg) (dev : Device) (n : Nat) : List Nat :=
  sectorMarks c dev n (okBefore c dev n)

/-- What the scan marks from a sector on. -/
private theorem scanLoop_ok {left n valid valid' : Nat} {s s' : Sectors}
    (h : scanLoop c dev left n (okBefore c dev n) valid s = .ok (valid', s')) :
    (0 < left → dev.erasesize ≠ 0) ∧ (∀ k, n ≤ k → k < n + left → k / 8 < s.numBytes) ∧
      Marks s ((List.range' n left).flatMap (marksAt c dev)) s' := by
  induction left generalizing n valid s with
  | zero =>
    obtain ⟨rfl, rfl⟩ := Prod.mk.inj (Except.ok.inj h)
    exact ⟨fun h => absurd h (Nat.lt_irrefl 0), fun k hk hlt => by omega, .nil s⟩
  | succ left ih =>
    obtain ⟨⟨ok, s₁⟩, hsector, h⟩ := bind_ok h
    obtain ⟨herase, hn, rfl, hmarks⟩ := scanSector_ok hsector
    obtain ⟨-, hrange, hrest⟩ := ih (n := n + 1) h
    refine ⟨fun _ => herase, fun k hk hlt => ?_, hmarks.trans hrest⟩
    -- this position, or one behind it
    rcases Nat.eq_or_lt_of_le hk with rfl | hk
    · exact hn
    · rw [← hmarks.numBytes_eq]
      exact hrange k hk (by omega)

/-- The scan from a sector on succeeds if it marks sectors of the map. -/
private theorem exists_scanLoop {left n : Nat} (valid : Nat) {s : Sectors}
    (herase : 0 < left → dev.erasesize ≠ 0) (hn : ∀ k, n ≤ k → k < n + left → k / 8 < s.numBytes)
    (h : ∀ k, n ≤ k → k < n + left → ∀ m ∈ marksAt c dev k, m / 8 < s.numBytes) :
    ∃ r, scanLoop c dev left n (okBefore c dev n) valid s = .ok r := by
  induction left generalizing n valid s with
  | zero => exact ⟨_, rfl⟩
  | succ left ih =>
    obtain ⟨⟨ok, s₁⟩, hsector⟩ := exists_scanSector (herase (Nat.succ_pos left))
      (hn n le_rfl (by omega)) (h n le_rfl (by omega))
    obtain ⟨-, -, rfl, hmarks⟩ := scanSector_ok hsector
    rw [scanLoop, hsector, ok_bind]
    -- the marks change no length
    apply ih (n := n + 1)
    · exact fun _ => herase (Nat.succ_pos left)
    · intro k hk hlt
      rw [hmarks.numBytes_eq]
      exact hn k (by omega) (by omega)
    · intro k hk hlt
      rw [hmarks.numBytes_eq]
      exact h k (by omega) (by omega)

/-- The sectors of a device. -/
def Device.numSectors (dev : Device) : Nat := dev.size.toNat / tffsSectorSize

/-- The positions that the scan visits. -/
def Device.numPositions (dev : Device) : Nat :=
  (dev.size.toNat + tffsSectorSize - 1) / tffsSectorSize

/-- The map at the start of the scan. -/
def startMap (dev : Device) : Sectors := { numSectors := dev.numSectors, sectors := fun _ => 0xff }

/-- At first nothing is marked. -/
private theorem not_marked_start (n : Nat) : ¬ (startMap dev).Marked n := by
  rintro ⟨-, hbit⟩
  have hones : ∀ k < 8, (0xff : UInt8).toNat.testBit (7 - k) = true := by decide
  rw [startMap, bit, hones (n % 8) (Nat.mod_lt n (by omega))] at hbit
  cases hbit

/-- The scan is its loop. -/
private theorem scanMtd_eq (c : Cfg) (dev : Device) : scanMtd c dev =
    scanLoop c dev dev.numPositions 0 (okBefore c dev 0) 0 (startMap dev) := rfl

/-- What the scan marks. -/
private theorem scanMtd_ok {valid : Nat} {s : Sectors} (h : scanMtd c dev = .ok (valid, s)) :
    (0 < dev.numPositions → dev.erasesize ≠ 0) ∧
      (∀ k < dev.numPositions, k / 8 < (startMap dev).numBytes) ∧
      s.numSectors = dev.numSectors ∧
      ∀ n, s.Marked n ↔ ∃ k < dev.numPositions, n ∈ marksAt c dev k := by
  rw [scanMtd_eq] at h
  obtain ⟨herase, hinside, hmarks⟩ := scanLoop_ok h
  refine ⟨herase, fun k hk => hinside k (Nat.zero_le k) (by rwa [Nat.zero_add]),
    hmarks.numSectors_eq, fun n => ?_⟩
  rw [hmarks.marked_iff, List.mem_flatMap, or_iff_right (not_marked_start n)]
  simp only [List.mem_range'_1, Nat.zero_le, true_and, Nat.zero_add]

/-- The scan succeeds if it marks sectors of the map. -/
private theorem exists_scanMtd (herase : 0 < dev.numPositions → dev.erasesize ≠ 0)
    (hinside : ∀ k < dev.numPositions, k / 8 < (startMap dev).numBytes)
    (h : ∀ k < dev.numPositions, ∀ n ∈ marksAt c dev k, n / 8 < (startMap dev).numBytes) :
    ∃ valid s, scanMtd c dev = .ok (valid, s) := by
  rw [scanMtd_eq]
  obtain ⟨⟨valid, s⟩, hr⟩ := exists_scanLoop 0 herase
    (fun k _ hlt => hinside k (by rwa [Nat.zero_add] at hlt))
    (fun k _ hlt => h k (by rwa [Nat.zero_add] at hlt))
  exact ⟨valid, s, hr⟩

/-! ### Blocks -/

/-- Sector `n` is in the erase block that starts at sector `b`. -/
structure InBlock (dev : Device) (b n : Nat) : Prop where
  start : IsStart dev b
  le : b ≤ n
  not_start : ∀ k, b < k → k ≤ n → ¬ IsStart dev k

/-- Every sector is in a block. -/
private theorem exists_inBlock (dev : Device) (n : Nat) : ∃ b, InBlock dev b n := by
  induction n with
  | zero =>
    have hzero : IsStart dev 0 := by rw [IsStart, Nat.zero_mul, Nat.zero_mod]
    exact ⟨0, hzero, le_rfl, fun k hk hle => by omega⟩
  | succ n ih =>
    -- a new block starts, or the block goes on
    by_cases hstart : IsStart dev (n + 1)
    · exact ⟨n + 1, hstart, le_rfl, fun k hk hle => by omega⟩
    · obtain ⟨b, hb, hle, hnot⟩ := ih
      refine ⟨b, hb, by omega, fun k hk hle' => ?_⟩
      rcases Nat.eq_or_lt_of_le hle' with rfl | hlt
      · exact hstart
      · exact hnot k hk (Nat.lt_succ_iff.mp hlt)

/-- Inside a block, `block_ok` says whether its header is valid. -/
private theorem okBefore_succ {b n : Nat} (h : InBlock dev b n) :
    okBefore c dev (n + 1) = validBlock c dev b := by
  obtain ⟨hb, hle, hnot⟩ := h
  induction n with
  | zero =>
    obtain rfl := Nat.le_zero.mp hle
    rw [okBefore, nextOk, if_pos hb]
  | succ n ih =>
    rw [okBefore, nextOk]
    rcases Nat.eq_or_lt_of_le hle with rfl | hlt
    · rw [if_pos hb]
    · rw [if_neg (hnot (n + 1) hlt le_rfl)]
      exact ih (Nat.lt_succ_iff.mp hlt) fun k hk hle => hnot k hk (Nat.le_succ_of_le hle)

/-- What is marked at the start of a block. -/
private theorem marksAt_start {n : Nat} (h : IsStart dev n) :
    marksAt c dev n = blockMarks c dev n ++ [n] := by
  rw [marksAt, sectorMarks, if_pos h]

/-- What is marked inside of a block. -/
private theorem marksAt_inside {b n : Nat} (h : InBlock dev b n) (hne : n ≠ b) :
    marksAt c dev n = if validBlock c dev b && checkSector c dev n then [] else [n] := by
  have hle := h.le
  rw [marksAt, sectorMarks, if_neg (h.not_start n (by omega) le_rfl)]
  obtain ⟨m, rfl⟩ : ∃ m, n = m + 1 := ⟨n - 1, by omega⟩
  have hin : InBlock dev b m :=
    ⟨h.start, by omega, fun k hk hkle => h.not_start k hk (by omega)⟩
  rw [okBefore_succ hin]
  cases validBlock c dev b <;> cases checkSector c dev (m + 1) <;> rfl

/-! ### What the scan should do -/

/-- The scan stays inside the device, and marks of a block with a valid header its first sector, the
sectors that the header lists, and those that are bad. -/
def ScanGood (c : Cfg) (dev : Device) : Prop :=
  ∃ valid s, scanMtd c dev = .ok (valid, s) ∧ (∀ n, s.Marked n → n < dev.numSectors) ∧
    ∀ b n, InBlock dev b n → n < dev.numSectors → validBlock c dev b = true →
      (s.Marked n ↔ n = b ∨ n ∈ listed c dev b ∨ checkSector c dev n = false)

/-- A block of the device with a valid header. -/
structure IsValid (c : Cfg) (dev : Device) (b : Nat) : Prop where
  start : IsStart dev b
  lt : b < dev.numPositions
  valid : validBlock c dev b = true

/-- What a device has to be like for that. -/
structure ScanSafe (c : Cfg) (dev : Device) : Prop where
  erasesize : dev.size ≠ 0 → dev.erasesize ≠ 0
  /-- The headers list sectors of the device. -/
  listed_lt : ∀ b, IsValid c dev b → ∀ n ∈ listed c dev b, n < dev.numSectors
  /-- They list no sector of another valid block that is not marked for that block anyway. -/
  listed_own : ∀ b b' n, IsValid c dev b → n ∈ listed c dev b → InBlock dev b' n →
    validBlock c dev b' = true → n = b' ∨ n ∈ listed c dev b' ∨ checkSector c dev n = false
  /-- What is left behind the last whole sector has a bit in the map, and is not marked. -/
  tail : dev.size.toNat % tffsSectorSize ≠ 0 → dev.numSectors % 8 ≠ 0 ∧
    checkSector c dev dev.numSectors = true ∧
    ∃ b, InBlock dev b dev.numSectors ∧ b ≠ dev.numSectors ∧ validBlock c dev b = true

/-- The scan goes past the last sector where it is cut short. -/
private theorem numPositions_eq (dev : Device) : dev.numPositions =
    if dev.size.toNat % tffsSectorSize = 0 then dev.numSectors else dev.numSectors + 1 := by
  rw [Device.numPositions, Device.numSectors, tffsSectorSize]
  split <;> omega

/-- The scan has a sector if the device is not empty. -/
private theorem numPositions_pos (dev : Device) : 0 < dev.numPositions ↔ dev.size ≠ 0 := by
  have hzero : dev.size = 0 ↔ dev.size.toNat = 0 := by
    rw [← UInt32.toNat_inj, UInt32.toNat_zero]
  rw [Ne, hzero, Device.numPositions, tffsSectorSize]
  omega

/-- Every sector is scanned. -/
private theorem lt_numPositions {n : Nat} (h : n < dev.numSectors) : n < dev.numPositions := by
  rw [numPositions_eq]
  split <;> omega

/-- What a block marks is listed by a valid one. -/
private theorem isValid_of_mem {b n : Nat} (hb : b < dev.numPositions) (hstart : IsStart dev b)
    (h : n ∈ blockMarks c dev b) : IsValid c dev b ∧ n ∈ listed c dev b := by
  rw [blockMarks] at h
  split at h
  · next hvalid => exact ⟨⟨hstart, hb, hvalid⟩, h⟩
  · cases h

/-- What a valid block lists is marked. -/
theorem IsValid.mem_marksAt {b n : Nat} (h : IsValid c dev b) (hn : n ∈ listed c dev b) :
    n ∈ marksAt c dev b := by
  rw [marksAt_start h.start, blockMarks, if_pos h.valid]
  exact List.mem_append_left _ hn

/-- A good scan is safe. -/
theorem scanSafe_of_good (h : ScanGood c dev) : ScanSafe c dev := by
  obtain ⟨valid, s, hscan, hlt, hblocks⟩ := h
  obtain ⟨herase, hinside, -, hmarked⟩ := scanMtd_ok hscan
  have hmark : ∀ k < dev.numPositions, ∀ n ∈ marksAt c dev k, n < dev.numSectors :=
    fun k hk n hn => hlt n ((hmarked n).mpr ⟨k, hk, hn⟩)
  constructor
  · rwa [numPositions_pos] at herase
  · exact fun b hb n hn => hmark b hb.lt n (hb.mem_marksAt hn)
  · intro b b' n hb hn hin hvalid
    have hmem := hb.mem_marksAt hn
    exact (hblocks b' n hin (hmark b hb.lt n hmem) hvalid).mp ((hmarked n).mpr ⟨b, hb.lt, hmem⟩)
  -- a scan that ends inside a block looks at one sector more than there are
  · intro htail
    have hpos : dev.numPositions = dev.numSectors + 1 := by rw [numPositions_eq, if_neg htail]
    have hlast : dev.numSectors ∉ marksAt c dev dev.numSectors :=
      fun hmem => absurd (hmark _ (by omega) _ hmem) (Nat.lt_irrefl _)
    obtain ⟨b, hin⟩ := exists_inBlock dev dev.numSectors
    have hne : b ≠ dev.numSectors := by
      rintro rfl
      rw [marksAt_start hin.start] at hlast
      exact hlast (by simp)
    rw [marksAt_inside hin hne.symm] at hlast
    split at hlast
    · next hok =>
      obtain ⟨hvalid, hcheck⟩ := Bool.and_eq_true_iff.mp hok
      refine ⟨?_, hcheck, b, hin, hne, hvalid⟩
      have hbyte := hinside dev.numSectors (by omega)
      rw [Sectors.numBytes, startMap] at hbyte
      simp only at hbyte
      omega
    · exact absurd (List.mem_singleton_self _) hlast

/-- A sector is in one block. -/
theorem InBlock.unique {b b' n : Nat} (h : InBlock dev b n) (h' : InBlock dev b' n) : b = b' := by
  rcases Nat.lt_trichotomy b b' with hlt | heq | hlt
  · exact absurd h'.start (h.not_start b' hlt h'.le)
  · exact heq
  · exact absurd h.start (h'.not_start b hlt h.le)

/-- Where the scan marks: its own position, or what a valid header lists. -/
private theorem mem_marksAt {k n : Nat} (hk : k < dev.numPositions) (h : n ∈ marksAt c dev k) :
    (IsValid c dev k ∧ n ∈ listed c dev k) ∨
      (n = k ∧ ∀ b, InBlock dev b k → b ≠ k →
        validBlock c dev b = true → checkSector c dev k = false) := by
  by_cases hstart : IsStart dev k
  · rw [marksAt_start hstart, List.mem_append, List.mem_singleton] at h
    rcases h with h | rfl
    · exact .inl (isValid_of_mem hk hstart h)
    · exact .inr ⟨rfl, fun b hin hne _ =>
        absurd hstart (hin.not_start n (Nat.lt_of_le_of_ne hin.le hne) le_rfl)⟩
  · obtain ⟨b, hin⟩ := exists_inBlock dev k
    have hne : k ≠ b := by
      rintro rfl
      exact hstart hin.start
    rw [marksAt_inside hin hne] at h
    split at h
    · cases h
    -- inside a block a position marks itself only, and only if its check fails
    · next hbad =>
      refine .inr ⟨List.mem_singleton.mp h, fun b' hin' _ hvalid => ?_⟩
      obtain rfl := hin.unique hin'
      rw [hvalid, Bool.true_and, Bool.not_eq_true] at hbad
      exact hbad

/-- A safe scan is good. -/
theorem good_of_scanSafe (h : ScanSafe c dev) : ScanGood c dev := by
  have hmark : ∀ k < dev.numPositions, ∀ n ∈ marksAt c dev k, n < dev.numSectors := by
    intro k hk n hn
    rcases mem_marksAt hk hn with ⟨hvalid, hlisted⟩ | ⟨rfl, hown⟩
    · exact h.listed_lt k hvalid n hlisted
    · -- the last position is not marked if it is behind the last sector
      rw [numPositions_eq] at hk
      split at hk
      · exact hk
      · next htail =>
        refine Nat.lt_of_le_of_ne (Nat.lt_succ_iff.mp hk) ?_
        rintro rfl
        obtain ⟨-, hcheck, b, hin, hne, hvalid⟩ := h.tail htail
        rw [hown b hin hne hvalid] at hcheck
        cases hcheck
  -- the bitmap has a bit for every position, the one of the tail included
  have hinside : ∀ k < dev.numPositions, k / 8 < (startMap dev).numBytes := by
    intro k hk
    rw [Sectors.numBytes, startMap]
    rw [numPositions_eq] at hk
    split at hk
    · simp only
      omega
    · next htail =>
      have hbit := (h.tail htail).1
      simp only
      omega
  obtain ⟨valid, s, hscan⟩ := exists_scanMtd (c := c)
    (fun hpos => h.erasesize ((numPositions_pos dev).mp hpos)) hinside
    (fun k hk n hn => hinside n (lt_numPositions (hmark k hk n hn)))
  obtain ⟨-, -, -, hmarked⟩ := scanMtd_ok hscan
  refine ⟨valid, s, hscan, fun n hn => ?_, fun b n hin hlt hvalid => ?_⟩
  · obtain ⟨k, hk, hmem⟩ := (hmarked n).mp hn
    exact hmark k hk n hmem
  -- a sector is marked by the list of its own block, or by its own check
  · rw [hmarked]
    constructor
    · rintro ⟨k, hk, hmem⟩
      rcases mem_marksAt hk hmem with ⟨hk, hlisted⟩ | ⟨rfl, hown⟩
      · exact h.listed_own k b n hk hlisted hin hvalid
      · by_cases hne : n = b
        · exact .inl hne
        · exact .inr (.inr (hown b hin (Ne.symm hne) hvalid))
    · have hn := lt_numPositions hlt
      by_cases hne : n = b
      · intro _
        refine ⟨n, hn, ?_⟩
        rw [marksAt_start (hne ▸ hin.start)]
        exact List.mem_append_right _ (List.mem_singleton_self n)
      · rintro (heq | hlisted | hcheck)
        · exact absurd heq hne
        · exact ⟨b, Nat.lt_of_le_of_lt hin.le hn,
            IsValid.mem_marksAt ⟨hin.start, Nat.lt_of_le_of_lt hin.le hn, hvalid⟩ hlisted⟩
        · refine ⟨n, hn, ?_⟩
          rw [marksAt_inside hin hne, hcheck, Bool.and_false]
          exact List.mem_singleton_self n

/-- The scan does what it should exactly on a device whose headers list sectors of the device, and
none of another valid block that is good, and that has a whole number of sectors or such a rest that
is not marked. -/
theorem scan_good_iff (c : Cfg) (dev : Device) : ScanGood c dev ↔ ScanSafe c dev :=
  ⟨scanSafe_of_good, good_of_scanSafe⟩

/-! ### A block that lists too much -/

private theorem eight_le_eight : 8 ≤ 8 := Nat.le_refl 8

/-- A big-endian machine without OOB checks. -/
def plainCfg : Cfg :=
  { endian := .big, swapBytes := false, readOobSectorHealth := false, blocksize := 0x20000,
    sizeofSegment := 8, sizeof_ge := eight_le_eight }

/-- The header of a block that lists sectors 4096 and 0. -/
def farHeader : Mem := fun i =>
  [0x41, 0x56, 0x4d, 0x5f, 0x54, 0x46, 0x46, 0x53, 0, 0, 0, 3, 0, 0, 0, 2,
    0, 0, 0, 0, 0, 0, 0, 0, 0, 0, 0, 0, 0, 0, 0, 0, 0, 0, 0x10, 0].getD i 0

/-- A device of one erase block of 64 sectors with that header. -/
def farDevice : Device :=
  { size := 0x20000, erasesize := 0x20000, readSector := fun _ => some farHeader,
    readSectoroob := fun _ => none }

/-- The scan of that device marks a bit far behind its map. -/
theorem farDevice_not_good : ¬ ScanGood plainCfg farDevice := by
  intro h
  have hvalid : IsValid plainCfg farDevice 0 := ⟨by decide, by decide, by decide⟩
  have hlisted : 4096 ∈ listed plainCfg farDevice 0 := by decide
  exact absurd ((scanSafe_of_good h).listed_lt 0 hvalid 4096 hlisted) (by decide)

end HandsomeMod.Native.TffsNand
