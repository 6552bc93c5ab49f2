import HandsomeMod.Native.MtdResetbc
import HandsomeMod.Spec.MtdEraseLoop

/-!
# When the boot counter is reset

The loop looks at the first word of a slot only, does not see that a read failed, and the record is
built in a buffer of fixed size. `Resettable` is what a log needs for its last record to be 0.
-/

namespace HandsomeMod.Native.MtdResetbc

open ForStd Mtd

namespace Config

variable (c : Config)

/-! ### The property -/

/-- The bytes of slot `k`. -/
def slot (m : Mem) (k : Nat) : Mem := fun i => m (k * c.bcOffsetIncrement + i)

def IsRecord (m : Mem) (k : Nat) : Prop := c.magic (c.slot m k) = bootcountMagic

/-- A log of `k` records, with erased bytes behind them. -/
structure IsLog (m : Mem) (k : Nat) : Prop where
  le : k ≤ c.numBc
  records : ∀ j < k, c.IsRecord m j
  erased : ∀ x, k * c.bcOffsetIncrement ≤ x → x < c.d.size → m x = 0xff

/-- A record with count 0. -/
def IsZero (m : Mem) (k : Nat) : Prop := c.IsRecord m k ∧ c.count (c.slot m k) = 0

/-- The last record in front of the first erased slot, if there is one, has count 0. -/
def LastIsZero (m : Mem) : Prop :=
  ∃ k ≤ c.numBc, (∀ j < k, c.IsRecord m j) ∧
    (k = c.numBc ∨ c.magic (c.slot m k) = 0xffffffff) ∧ ∀ j, k = j + 1 → c.IsZero m j

/-- What a run does to a log of `k` records. -/
structure Reset (k : Nat) (ret : Int) (fd fd' : Fd) : Prop where
  zero : ret = 0 → c.LastIsZero fd'.mem
  kept : fd'.log = fd.log → fd'.mem = fd.mem
  /-- Only the first erased slot is written. -/
  appended : k < c.numBc → fd'.log ≠ fd.log →
    (∃ n ≤ c.bcOffsetIncrement,
      fd'.log = fd.log ++ [.write (k * c.bcOffsetIncrement) 0 n]) ∧
      (∀ x, x < k * c.bcOffsetIncrement ∨ (k + 1) * c.bcOffsetIncrement ≤ x →
        fd'.mem x = fd.mem x) ∧
      (ret = 0 → c.IsZero fd'.mem k)
  /-- A full log is erased first, and the new record is the only one. -/
  full : k = c.numBc → fd'.log ≠ fd.log → (∃ ops, fd'.log = fd.log ++ .erase 0 :: ops) ∧
    (ret = 0 → c.IsZero fd'.mem 0 ∧
      ∀ x, c.bcOffsetIncrement ≤ x → x < c.d.size → fd'.mem x = 0xff)

/-- A run does not leave `page` or the device, resets a log, and leaves any other content. -/
def Works (fd : Fd) : Prop :=
  ∃ ret fd', mtdResetbc c fd = .ok (ret, fd') ∧ (∀ x, c.d.size ≤ x → fd'.mem x = fd.mem x) ∧
    (∀ k, c.IsLog fd.mem k → c.Reset k ret fd fd') ∧
    ((∀ k, ¬c.IsLog fd.mem k) → ret ≠ 0 ∧ fd'.log = fd.log ∧ fd'.mem = fd.mem)

/-! ### The condition -/

/-- What `page` holds in front of slot `k`: what could be read so far. -/
def pages (m : Mem) : Nat → Mem
  | 0 => c.page
  | k + 1 => c.readSlot m (pages m k) k

/-- The count in front of slot `k`. -/
def lastCount (m : Mem) : Nat → Nat
  | 0 => 0
  | k + 1 => c.count (c.pages m (k + 1))

/-- In `page`, `i` slots look like records, and the next one is erased. -/
structure Stops (m : Mem) (i : Nat) : Prop where
  le : i ≤ c.numBc
  records : ∀ j < i, c.magic (c.pages m (j + 1)) = bootcountMagic
  last : i = c.numBc ∨ c.magic (c.pages m (i + 1)) = 0xffffffff

/-- What is needed where the slots come to an end in `page`. -/
structure Resettable (m : Mem) : Prop where
  /-- If the count is 0 there, it is so in the log. -/
  kept : ∀ i, c.Stops m i → c.lastCount m i = 0 →
    ∃ k, c.IsLog m k ∧ ∀ j, k = j + 1 → c.count (c.slot m j) = 0
  /-- If there is a slot left, it is the end of the log, and a slot is not longer than `page`. -/
  appended : ∀ i, c.Stops m i → i < c.numBc → c.lastCount m i ≠ 0 →
    c.IsLog m i ∧ c.bcOffsetIncrement ≤ sizeofPage
  /-- If there is none and something can be erased, the log is full, and a slot is not longer than
  `page` if all can be erased. -/
  full : c.Stops m c.numBc → c.lastCount m c.numBc ≠ 0 → c.d.canErase 0 = true →
    c.IsLog m c.numBc ∧
      ((∀ b < c.d.nblocks, c.d.canErase b = true) → c.bcOffsetIncrement ≤ sizeofPage)

/-! ### Slots -/

/-- A slot has room for a record. -/
private theorem bcOffsetIncrement_ge : 16 ≤ c.bcOffsetIncrement := by
  rw [bcOffsetIncrement, bcOffsetIncrementMin]
  split
  · exact le_rfl
  · omega

/-- A slot ends on the device. -/
private theorem slot_end_le {k : Nat} (hk : k < c.numBc) :
    k * c.bcOffsetIncrement + c.bcOffsetIncrement ≤ c.d.size := by
  have hmul := Nat.mul_le_mul_right c.bcOffsetIncrement (Nat.succ_le_of_lt hk)
  have hdiv := Nat.div_mul_le_self c.d.size c.bcOffsetIncrement
  rw [Nat.succ_mul] at hmul
  exact hmul.trans hdiv

/-- Slots follow one another. -/
private theorem slot_start_le {j k : Nat} (h : j < k) :
    j * c.bcOffsetIncrement + c.bcOffsetIncrement ≤ k * c.bcOffsetIncrement := by
  have hmul := Nat.mul_le_mul_right c.bcOffsetIncrement (Nat.succ_le_of_lt h)
  rwa [Nat.succ_mul] at hmul

/-- The magic is four bytes. -/
private theorem magic_congr {m m' : Mem} (h : ∀ i < 4, m i = m' i) : c.magic m = c.magic m' :=
  Endian.load_congr c.machine h

/-- Erased bytes read as ones. -/
private theorem magic_erased {m : Mem} (h : ∀ i < 4, m i = 0xff) : c.magic m = 0xffffffff := by
  have heq : c.magic m = c.magic fun _ => 0xff := c.magic_congr h
  rw [heq, magic]
  cases c.machine with
  | little => decide
  | big => decide

variable {c} {m : Mem}

/-- The slots behind a log are erased. -/
theorem IsLog.magic_slot {k j : Nat} (h : c.IsLog m k) (hk : k ≤ j) (hj : j < c.numBc) :
    c.magic (c.slot m j) = 0xffffffff := by
  apply c.magic_erased
  intro i hi
  have hend := c.slot_end_le hj
  have hinc := c.bcOffsetIncrement_ge
  have hmul := Nat.mul_le_mul_right c.bcOffsetIncrement hk
  exact h.erased _ (by omega) (by omega)

/-- A record is not erased. -/
theorem IsRecord.magic_ne {k : Nat} (h : c.IsRecord m k) : c.magic (c.slot m k) ≠ 0xffffffff := by
  rw [IsRecord] at h
  rw [h]
  decide

/-- A log has no more records than another reading of it. -/
theorem IsLog.le_of_isLog {k k' : Nat} (h : c.IsLog m k) (h' : c.IsLog m k') : k' ≤ k := by
  by_contra hlt
  have hrecord := h'.records k (by omega)
  exact hrecord.magic_ne (h.magic_slot le_rfl (by have := h'.le; omega))

/-- A log has one number of records. -/
theorem IsLog.eq {k k' : Nat} (h : c.IsLog m k) (h' : c.IsLog m k') : k = k' :=
  Nat.le_antisymm (h'.le_of_isLog h) (h.le_of_isLog h')

/-- The last record of a log. -/
theorem IsLog.lastIsZero_iff {k : Nat} (h : c.IsLog m k) :
    c.LastIsZero m ↔ ∀ j, k = j + 1 → c.count (c.slot m j) = 0 := by
  constructor
  · rintro ⟨k', hk', hrecords, hlast, hzero⟩
    -- both walks stop at the first slot that is no record, so they stop at the same one
    have hge : k' ≤ k := by
      by_contra hlt
      exact (hrecords k (by omega)).magic_ne (h.magic_slot le_rfl (by omega))
    have hle : k ≤ k' := by
      by_contra hlt
      rcases hlast with rfl | herased
      · have hk := h.le
        omega
      · exact (h.records k' (by omega)).magic_ne herased
    rw [Nat.le_antisymm hle hge]
    exact fun j hj => (hzero j hj).2
  · intro hzero
    refine ⟨k, h.le, h.records, ?_, fun j hj => ⟨h.records j (by omega), hzero j hj⟩⟩
    rcases Nat.lt_or_ge k c.numBc with hlt | hge
    · exact .inr (h.magic_slot le_rfl hlt)
    · exact .inl (Nat.le_antisymm h.le hge)

/-! ### The loop -/

/-- The scan stops not behind another stop. -/
theorem Stops.le_of_stops {i i' : Nat} (h : c.Stops m i) (h' : c.Stops m i') : i' ≤ i := by
  by_contra hlt
  have hrecord := h'.records i (by omega)
  have hle := h'.le
  rcases h.last with heq | herased
  · omega
  · rw [hrecord] at herased
    exact absurd herased (by decide)

/-- The scan stops at one slot. -/
theorem Stops.eq {i i' : Nat} (h : c.Stops m i) (h' : c.Stops m i') : i = i' :=
  Nat.le_antisymm (h'.le_of_stops h) (h.le_of_stops h')

/-- A turn of the scan. -/
private theorem scan_succ (n i : Nat) : c.scan m (n + 1) i (c.pages m i) (c.lastCount m i) =
    if c.magic (c.pages m (i + 1)) ≠ bootcountMagic ∧ c.magic (c.pages m (i + 1)) ≠ 0xffffffff then
      .unexpected
    else if c.magic (c.pages m (i + 1)) = 0xffffffff then
      .stop (c.pages m (i + 1)) i (c.lastCount m i)
    else c.scan m n (i + 1) (c.pages m (i + 1)) (c.lastCount m (i + 1)) :=
  rfl

/-- The loop finds where the slots come to an end, or a slot that is neither a record nor erased. -/
theorem scan_spec (n i : Nat) (hn : i + n = c.numBc)
    (hrecords : ∀ j < i, c.magic (c.pages m (j + 1)) = bootcountMagic) :
    (c.scan m n i (c.pages m i) (c.lastCount m i) = .unexpected ∧ ∀ k, ¬c.Stops m k) ∨
      ∃ page k, c.scan m n i (c.pages m i) (c.lastCount m i) = .stop page k (c.lastCount m k) ∧
        c.Stops m k := by
  -- `page` and the last count are those of slot `i`, the slots before it are records
  induction n generalizing i with
  | zero => exact .inr ⟨_, i, rfl, by omega, hrecords, .inl (by omega)⟩
  | succ n ih =>
    rw [scan_succ]
    -- an erased slot ends the scan, a record goes on, anything else is unexpected
    by_cases herased : c.magic (c.pages m (i + 1)) = 0xffffffff
    · rw [if_neg (fun hne => hne.2 herased), if_pos herased]
      exact .inr ⟨_, i, rfl, by omega, hrecords, .inr herased⟩
    · by_cases hrecord : c.magic (c.pages m (i + 1)) = bootcountMagic
      · rw [if_neg (fun hne => hne.1 hrecord), if_neg herased]
        refine ih (i + 1) (by omega) fun j hj => ?_
        rcases Nat.lt_succ_iff_lt_or_eq.mp hj with hlt | rfl
        · exact hrecords j hlt
        · exact hrecord
      · rw [if_pos ⟨hrecord, herased⟩]
        refine .inl ⟨rfl, fun k hk => ?_⟩
        -- no stop before `i`, where there are records; none at `i`, and none behind a slot that is
        -- neither
        rcases Nat.lt_trichotomy k i with hlt | rfl | hgt
        · rcases hk.last with heq | hlast
          · omega
          · rw [hrecords k hlt] at hlast
            exact absurd hlast (by decide)
        · rcases hk.last with heq | hlast
          · omega
          · exact herased hlast
        · exact hrecord (hk.records i hgt)

/-- The scan meets something unexpected, or stops. -/
private theorem scan_cases (m : Mem) :
    (c.scan m c.numBc 0 c.page 0 = .unexpected ∧ ∀ k, ¬c.Stops m k) ∨
      ∃ page k, c.scan m c.numBc 0 c.page 0 = .stop page k (c.lastCount m k) ∧ c.Stops m k :=
  scan_spec c.numBc 0 (Nat.zero_add _) fun j hj => absurd hj (Nat.not_lt_zero j)

/-! ### The new record -/

/-- A record has three words. -/
private theorem length_words (v v' v'' : Nat) :
    (bytesAt (c.machine.store 4 v) 0 4 ++ bytesAt (c.machine.store 4 v') 0 4 ++
      bytesAt (c.machine.store 4 v'') 0 4).length = 12 := by
  simp only [List.length_append, length_bytesAt]

/-- The new record starts with the magic. -/
private theorem newRecord_magic (page : Mem) {i : Nat} (hi : i < 4) :
    c.newRecord page i = c.machine.store 4 bootcountMagic i := by
  have hlen := length_words (c := c) bootcountMagic 0 bootcountMagic
  have hadd := writeBytes_add (writeBytes page 0 (List.replicate c.bcOffsetIncrement 0xff)) 0
    (l := bytesAt (c.machine.store 4 bootcountMagic) 0 4 ++ bytesAt (c.machine.store 4 0) 0 4 ++
      bytesAt (c.machine.store 4 bootcountMagic) 0 4) (i := i) (by omega)
  rw [Nat.zero_add] at hadd
  rw [newRecord, hadd, List.append_assoc, List.getD_append _ _ _ _ (by rw [length_bytesAt]; omega),
    getD_bytesAt _ _ hi, Nat.zero_add]

/-- The new record has the count zero. -/
private theorem newRecord_count (page : Mem) {i : Nat} (hi : i < 4) :
    c.newRecord page (4 + i) = c.machine.store 4 0 i := by
  have hlen := length_words (c := c) bootcountMagic 0 bootcountMagic
  have hadd := writeBytes_add (writeBytes page 0 (List.replicate c.bcOffsetIncrement 0xff)) 0
    (l := bytesAt (c.machine.store 4 bootcountMagic) 0 4 ++ bytesAt (c.machine.store 4 0) 0 4 ++
      bytesAt (c.machine.store 4 bootcountMagic) 0 4) (i := 4 + i) (by omega)
  rw [Nat.zero_add] at hadd
  rw [newRecord, hadd, List.append_assoc,
    List.getD_append_right _ _ _ _ (by rw [length_bytesAt]; omega), length_bytesAt,
    List.getD_append _ _ _ _ (by rw [length_bytesAt]; omega), getD_bytesAt _ _ (by omega),
    Nat.zero_add]
  congr 1
  omega

/-- A slot with the new record has count 0. -/
private theorem isZero_of_newRecord {k : Nat} (page : Mem)
    (h : ∀ i < 8, m (k * c.bcOffsetIncrement + i) = c.newRecord page i) : c.IsZero m k := by
  constructor
  · have hmagic : c.magic (c.slot m k) = c.magic (c.machine.store 4 bootcountMagic) :=
      c.magic_congr fun i hi => (h i (by omega)).trans (newRecord_magic page hi)
    rw [IsRecord, hmagic, magic, Endian.load_store _ (by decide)]
  · have hcount : c.count (c.slot m k) = c.machine.load 4 (c.machine.store 4 0) :=
      Endian.load_congr c.machine fun i hi =>
        (h (4 + i) (by omega)).trans (newRecord_count page hi)
    rw [hcount, Endian.load_store _ (by decide)]

/-! ### Erasing and writing -/

/-- Erasing a block. -/
private theorem memErase_block (fd : Fd) (b : Nat) : fd.memErase c.d (b * c.d.erasesize) =
    if c.d.canErase b = true then
      some { fd with
        mem := fun x => if b * c.d.erasesize ≤ x ∧ x < b * c.d.erasesize + c.d.erasesize then 0xff
          else fd.mem x
        log := fd.log ++ [.erase (b * c.d.erasesize)] }
    else none := by
  rw [Fd.memErase, Nat.mul_mod_left, Nat.mul_div_cancel _ c.d.erasesize_pos]
  simp only [true_and]

/-- Nothing is erased behind a block that cannot be. -/
private theorem eraseBlocks_none (fd : Fd) {b n : Nat} (h : c.d.canErase b = false) (hn : 0 < n) :
    c.eraseBlocks fd b n = (fd, false) := by
  obtain ⟨n, rfl⟩ := Nat.exists_eq_succ_of_ne_zero hn.ne'
  rw [eraseBlocks_succ, memErase_block, if_neg (by rw [h]; decide)]

/-- All blocks are erased exactly if each can be. -/
private theorem eraseBlocks_snd (fd : Fd) (b n : Nat) :
    (c.eraseBlocks fd b n).2 = true ↔ ∀ j, b ≤ j → j < b + n → c.d.canErase j = true := by
  induction n generalizing fd b with
  | zero => exact iff_of_true rfl fun j hj hlt => by omega
  | succ n ih =>
    rw [eraseBlocks_succ, memErase_block]
    by_cases hb : c.d.canErase b = true
    · rw [if_pos hb]
      simp only
      rw [ih]
      refine ⟨fun h j hj hlt => ?_, fun h j hj hlt => h j (by omega) (by omega)⟩
      rcases Nat.eq_or_lt_of_le hj with rfl | hgt
      · exact hb
      · exact h j hgt (by omega)
    -- the first block fails, and ends the loop
    · rw [if_neg hb]
      exact iff_of_false Bool.false_ne_true fun h => hb (h b le_rfl (by omega))

/-- What was erased stays erased, up to the end of the last block. -/
private theorem eraseBlocks_mem (fd : Fd) (b n : Nat) (h : (c.eraseBlocks fd b n).2 = true)
    (x : Nat) :
    (c.eraseBlocks fd b n).1.mem x =
      if b * c.d.erasesize ≤ x ∧ x < (b + n) * c.d.erasesize then 0xff else fd.mem x := by
  induction n generalizing fd b with
  | zero =>
    rw [eraseBlocks, if_neg]
    rw [Nat.add_zero]
    omega
  | succ n ih =>
    have hmul : (b + 1) * c.d.erasesize = b * c.d.erasesize + c.d.erasesize := Nat.succ_mul _ _
    have hle : (b + 1) * c.d.erasesize ≤ (b + (n + 1)) * c.d.erasesize :=
      Nat.mul_le_mul_right _ (by omega)
    have hb := (eraseBlocks_snd fd b (n + 1)).mp h b le_rfl (by omega)
    rw [eraseBlocks_succ, memErase_block, if_pos hb] at h ⊢
    simp only at h ⊢
    rw [ih _ _ h, show b + 1 + n = b + (n + 1) by omega]
    -- in the first block or in one of the rest
    split
    · rw [if_pos (by omega)]
    · split
      · exact if_pos (by omega)
      · exact if_neg (by omega)

/-- Erasing adds to the log. -/
private theorem eraseBlocks_log (fd : Fd) (b n : Nat) :
    ∃ ops, (c.eraseBlocks fd b n).1.log = fd.log ++ ops := by
  induction n generalizing fd b with
  | zero => exact ⟨[], (List.append_nil _).symm⟩
  | succ n ih =>
    rw [eraseBlocks_succ, memErase_block]
    by_cases hb : c.d.canErase b = true
    · rw [if_pos hb]
      obtain ⟨ops, hops⟩ := ih { fd with
        mem := fun x => if b * c.d.erasesize ≤ x ∧ x < b * c.d.erasesize + c.d.erasesize then 0xff
          else fd.mem x
        log := fd.log ++ [.erase (b * c.d.erasesize)] } (b + 1)
      exact ⟨_, hops.trans (List.append_assoc _ _ _)⟩
    · rw [if_neg hb]
      exact ⟨[], (List.append_nil _).symm⟩

/-- The first block is erased first. -/
private theorem eraseBlocks_log_erase (fd : Fd) {n : Nat} (h : c.d.canErase 0 = true) (hn : 0 < n) :
    ∃ ops, (c.eraseBlocks fd 0 n).1.log = fd.log ++ .erase 0 :: ops := by
  obtain ⟨n, rfl⟩ := Nat.exists_eq_succ_of_ne_zero hn.ne'
  rw [eraseBlocks_succ, memErase_block, if_pos h]
  simp only [Nat.zero_mul]
  obtain ⟨ops, hops⟩ := eraseBlocks_log (c := c) { fd with
    mem := fun x => if 0 ≤ x ∧ x < 0 + c.d.erasesize then 0xff else fd.mem x
    log := fd.log ++ [.erase 0] } (0 + 1) n
  exact ⟨ops, hops.trans (List.append_assoc _ _ _)⟩

/-- Erasing keeps what is behind the blocks. -/
private theorem eraseBlocks_mem_of_le (fd : Fd) (b n : Nat) {x : Nat}
    (hx : (b + n) * c.d.erasesize ≤ x) :
    (c.eraseBlocks fd b n).1.mem x = fd.mem x := by
  induction n generalizing fd b with
  | zero => rfl
  | succ n ih =>
    -- the first block ends where the second one starts, below `x`
    have hmul : (b + 1) * c.d.erasesize = b * c.d.erasesize + c.d.erasesize := Nat.succ_mul _ _
    have hle : (b + 1) * c.d.erasesize ≤ (b + (n + 1)) * c.d.erasesize :=
      Nat.mul_le_mul_right _ (by omega)
    rw [eraseBlocks_succ, memErase_block]
    by_cases hb : c.d.canErase b = true
    · rw [if_pos hb]
      simp only
      rw [ih _ _ (by rwa [show b + 1 + n = b + (n + 1) by omega])]
      exact if_neg (by omega)
    · rw [if_neg hb]

/-- Slots larger than a page are written from behind the page. -/
private theorem append_fault (fd : Fd) (page : Mem) (i : Nat) (h : sizeofPage < c.bcOffsetIncrement)
    :
    c.append fd page i = .error .outOfBounds := by
  rw [append, if_pos h]

/-- A record is written to its slot only. -/
private theorem append_ok (fd : Fd) (page : Mem) {i : Nat} (h : c.bcOffsetIncrement ≤ sizeofPage)
    (hi : i < c.numBc) :
    ∃ ret fd', c.append fd page i = .ok (ret, fd') ∧
      (∃ n ≤ c.bcOffsetIncrement,
        fd'.log = fd.log ++ [.write (i * c.bcOffsetIncrement) 0 n]) ∧
      (∀ x, x < i * c.bcOffsetIncrement ∨
        i * c.bcOffsetIncrement + c.bcOffsetIncrement ≤ x ∨ c.d.size ≤ x →
          fd'.mem x = fd.mem x) ∧
      (ret = 0 → ∀ j < c.bcOffsetIncrement, fd'.mem (i * c.bcOffsetIncrement + j) =
        fd.mem (i * c.bcOffsetIncrement + j) &&& c.newRecord page j) := by
  have hend := c.slot_end_le hi
  have hinc := c.bcOffsetIncrement_ge
  obtain ⟨n, hn, hlog, hmem⟩ := pwrite_change (d := c.d) fd (c.newRecord page) c.bcOffsetIncrement
    (show i * c.bcOffsetIncrement < c.d.size by omega)
  rw [append, if_neg (by omega)]
  simp only
  -- the record is written whole, or the call reports the failed write
  by_cases hwrite : c.d.writeFault (i * c.bcOffsetIncrement) = none
  · obtain ⟨hret, hok⟩ := pwrite_ok fd (c.newRecord page) hwrite (by omega) hend
    rw [if_neg (by rw [hret]; omega)]
    refine ⟨0, _, rfl, ⟨n, hn, hlog⟩, hmem, fun _ j hj => ?_⟩
    have hbyte := congrFun hok (i * c.bcOffsetIncrement + j)
    rw [if_pos (by omega), Nat.add_sub_cancel_left] at hbyte
    exact hbyte
  · have hret := pwrite_fault fd (c.newRecord page) (n := c.bcOffsetIncrement) hwrite (by omega)
    rw [if_pos (by rw [hret]; decide)]
    exact ⟨-4, _, rfl, ⟨n, hn, hlog⟩, hmem, fun hzero => absurd hzero (by decide)⟩

/-! ### When the counter is reset -/

variable {fd : Fd}

/-- An error that leaves the device as it is. -/
theorem works_of_error {ret : Int} (h : mtdResetbc c fd = .ok (ret, fd)) (hret : ret ≠ 0) :
    c.Works fd := by
  refine ⟨ret, fd, h, fun _ _ => rfl, fun k _ => ?_, fun _ => ⟨hret, rfl, rfl⟩⟩
  exact ⟨fun hzero => absurd hzero hret, fun _ => rfl, fun _ hne => absurd rfl hne,
    fun _ hne => absurd rfl hne⟩

/-- Keeping the log is right exactly if the last count is zero. -/
private theorem works_iff_of_kept (h : mtdResetbc c fd = .ok (0, fd)) :
    c.Works fd ↔ ∃ k, c.IsLog fd.mem k ∧ ∀ j, k = j + 1 → c.count (c.slot fd.mem j) = 0 := by
  constructor
  · rintro ⟨ret, fd', heq, -, hlog, hother⟩
    rw [h] at heq
    cases heq
    -- the flash is kept, so it has to be a log with a zero count
    by_cases hex : ∃ k, c.IsLog fd.mem k
    · obtain ⟨k, hk⟩ := hex
      exact ⟨k, hk, hk.lastIsZero_iff.mp ((hlog k hk).zero rfl)⟩
    · exact absurd rfl (hother (not_exists.mp hex)).1
  · rintro ⟨k, hk, hzero⟩
    refine ⟨0, fd, h, fun _ _ => rfl, fun k' hk' => ?_, fun hno => absurd hk (hno k)⟩
    rw [← hk.eq hk']
    exact ⟨fun _ => hk.lastIsZero_iff.mpr hzero, fun _ => rfl, fun _ hne => absurd rfl hne,
      fun _ hne => absurd rfl hne⟩

/-- A log with one more operation is another log. -/
private theorem log_ne {ops : List Op} (op : Op) : fd.log ++ op :: ops ≠ fd.log := by
  intro heq
  have hlen := congrArg List.length heq
  rw [List.length_append, List.length_cons] at hlen
  omega

/-- Appending a record is right exactly behind the last one, with slots of a page at most. -/
private theorem works_iff_of_append {page : Mem} {i : Nat} (hi : i < c.numBc)
    (h : mtdResetbc c fd = c.append fd page i) :
    c.Works fd ↔ c.IsLog fd.mem i ∧ c.bcOffsetIncrement ≤ sizeofPage := by
  have hinc := c.bcOffsetIncrement_ge
  by_cases hroom : c.bcOffsetIncrement ≤ sizeofPage
  · obtain ⟨ret, fd', happend, ⟨n, hn, hlog⟩, hmem, hok⟩ := append_ok fd page hroom hi
    rw [happend] at h
    rw [and_iff_left hroom]
    constructor
    · rintro ⟨ret', fd'', heq, -, hreset, hother⟩
      rw [h] at heq
      cases heq
      by_cases hex : ∃ k, c.IsLog fd.mem k
      -- the log of operations shows the slot of the append, and a working call appends at the end
      · obtain ⟨k, hk⟩ := hex
        rcases Nat.lt_or_ge k c.numBc with hlt | hge
        · obtain ⟨⟨n', -, hlog'⟩, -⟩ := (hreset k hk).appended hlt (by rw [hlog]; exact log_ne _)
          rw [hlog, List.append_cancel_left_eq, List.cons.injEq, Op.write.injEq] at hlog'
          have hki := Nat.eq_of_mul_eq_mul_right (by omega) hlog'.1.1
          rwa [hki]
        · obtain ⟨⟨ops, hops⟩, -⟩ := (hreset k hk).full (Nat.le_antisymm hk.le hge)
            (by rw [hlog]; exact log_ne _)
          rw [hlog, List.append_cancel_left_eq, List.cons.injEq] at hops
          cases hops.1
      -- without a record log nothing may be done, but a write was
      · have hsame := (hother (not_exists.mp hex)).2.1
        rw [hlog] at hsame
        exact absurd hsame (log_ne _)
    · intro hk
      have hzero : ret = 0 → c.IsZero fd'.mem i := by
        intro hret
        apply isZero_of_newRecord page
        intro j hj
        have hend := c.slot_end_le hi
        rw [hok hret j (by omega), hk.erased _ (by omega) (by omega)]
        exact UInt8.toBitVec_inj.mp BitVec.allOnes_and
      refine ⟨ret, fd', h, fun x hx => hmem x (.inr (.inr hx)), fun k hk' => ?_,
        fun hno => absurd hk (hno i)⟩
      rw [← hk.eq hk']
      refine ⟨fun hret => ?_, fun hsame => ?_, fun _ _ => ⟨⟨n, hn, hlog⟩, fun x hx => ?_, hzero⟩,
        fun heq _ => absurd heq hi.ne⟩
      -- the new record extends the log by one, and the rest stays erased
      · have hnext : c.IsLog fd'.mem (i + 1) := by
          refine ⟨hi, fun j hj => ?_, fun x hx hlt => ?_⟩
          · rcases Nat.lt_succ_iff_lt_or_eq.mp hj with hlt | rfl
            · have hstart := c.slot_start_le hlt
              have hsame : c.magic (c.slot fd'.mem j) = c.magic (c.slot fd.mem j) :=
                c.magic_congr fun a ha => hmem _ (.inl (by omega))
              exact hsame.trans (hk.records j hlt)
            · exact (hzero hret).1
          · rw [Nat.succ_mul] at hx
            rw [hmem x (.inr (.inl hx))]
            exact hk.erased x (by omega) hlt
        refine hnext.lastIsZero_iff.mpr fun j hj => ?_
        rw [show j = i by omega]
        exact (hzero hret).2
      · rw [hlog] at hsame
        exact absurd hsame (log_ne _)
      · rw [Nat.succ_mul] at hx
        exact hmem x (by omega)
  -- a record longer than the page is no call that ends
  · rw [append_fault fd page i (by omega)] at h
    refine iff_of_false ?_ fun hand => hroom hand.2
    rintro ⟨ret, fd', heq, -⟩
    rw [h] at heq
    cases heq

/-- A device that is erased had a full log. -/
private theorem works_iff_of_erased {ret : Int} {fd' : Fd} {ops : List Op} (hnum : 0 < c.numBc)
    (h : mtdResetbc c fd = .ok (ret, fd')) (hlog : fd'.log = fd.log ++ .erase 0 :: ops)
    (hmem : ∀ x, c.d.size ≤ x → fd'.mem x = fd.mem x)
    (hzero : ret = 0 → c.IsZero fd'.mem 0 ∧
      ∀ x, c.bcOffsetIncrement ≤ x → x < c.d.size → fd'.mem x = 0xff) :
    c.Works fd ↔ c.IsLog fd.mem c.numBc := by
  have hne : fd'.log ≠ fd.log := by
    rw [hlog]
    exact log_ne _
  constructor
  · rintro ⟨ret', fd'', heq, -, hreset, hother⟩
    rw [h] at heq
    cases heq
    by_cases hex : ∃ k, c.IsLog fd.mem k
    · obtain ⟨k, hk⟩ := hex
      rcases Nat.lt_or_ge k c.numBc with hlt | hge
      -- with room left a working call writes first, this one erased
      · obtain ⟨⟨n, -, hlog'⟩, -⟩ := (hreset k hk).appended hlt hne
        rw [hlog, List.append_cancel_left_eq, List.cons.injEq] at hlog'
        cases hlog'.1
      · rwa [← Nat.le_antisymm hk.le hge]
    · exact absurd (hother (not_exists.mp hex)).2.1 hne
  · intro hk
    refine ⟨ret, fd', h, hmem, fun k hk' => ?_, fun hno => absurd hk (hno _)⟩
    rw [← hk.eq hk']
    refine ⟨fun hret => ?_, fun hsame => absurd hsame hne, fun hlt => absurd hlt (Nat.lt_irrefl _),
      fun _ _ => ⟨⟨ops, hlog⟩, hzero⟩⟩
    obtain ⟨hrecord, herased⟩ := hzero hret
    -- the log starts again, with one record
    have hone : c.IsLog fd'.mem 1 := by
      refine ⟨hnum, fun j hj => ?_, fun x hx hlt => herased x (by omega) hlt⟩
      rw [show j = 0 by omega]
      exact hrecord.1
    refine hone.lastIsZero_iff.mpr fun j hj => ?_
    rw [show j = 0 by omega]
    exact hrecord.2

/-- The log looks full. -/
private theorem works_iff_of_full {page : Mem} (hnum : 0 < c.numBc)
    (h : mtdResetbc c fd =
      if (c.eraseBlocks fd 0 c.d.nblocks).2 = false then
        .ok (-3, (c.eraseBlocks fd 0 c.d.nblocks).1)
      else c.append (c.eraseBlocks fd 0 c.d.nblocks).1 page 0) :
    c.Works fd ↔ (c.d.canErase 0 = true → c.IsLog fd.mem c.numBc ∧
      ((∀ b < c.d.nblocks, c.d.canErase b = true) → c.bcOffsetIncrement ≤ sizeofPage)) := by
  have hinc := c.bcOffsetIncrement_ge
  have hend := c.slot_end_le hnum
  have hnblocks : 0 < c.d.nblocks := by
    have hmul := c.d.nblocks_mul
    refine Nat.pos_of_ne_zero fun hzero => ?_
    rw [hzero, Nat.zero_mul] at hmul
    omega
  have hall := eraseBlocks_snd (c := c) fd 0 c.d.nblocks
  -- a failed first erase leaves the flash as it was, and the call reports it
  by_cases hfirst : c.d.canErase 0 = true
  · obtain ⟨ops, hops⟩ := eraseBlocks_log_erase fd hfirst hnblocks
    have hout : ∀ x, c.d.size ≤ x →
        (c.eraseBlocks fd 0 c.d.nblocks).1.mem x = fd.mem x := by
      intro x hx
      exact eraseBlocks_mem_of_le fd 0 c.d.nblocks (by rwa [Nat.zero_add, c.d.nblocks_mul])
    -- a later erase that fails ends the call too, the first block is gone by then
    by_cases hok : (c.eraseBlocks fd 0 c.d.nblocks).2 = true
    · have hblocks : ∀ b < c.d.nblocks, c.d.canErase b = true := fun b hb =>
        hall.mp hok b (Nat.zero_le b) (by omega)
      rw [if_neg (by rw [hok]; decide)] at h
      by_cases hroom : c.bcOffsetIncrement ≤ sizeofPage
      · obtain ⟨ret, fd', happend, ⟨n, -, hlog⟩, hmem, hwritten⟩ :=
          append_ok (c.eraseBlocks fd 0 c.d.nblocks).1 page hroom hnum
        rw [happend] at h
        have herased : ∀ x < c.d.size, (c.eraseBlocks fd 0 c.d.nblocks).1.mem x = 0xff := by
          intro x hx
          rw [eraseBlocks_mem fd 0 c.d.nblocks hok, if_pos]
          rw [Nat.zero_add, c.d.nblocks_mul]
          omega
        rw [hops, List.append_assoc, List.cons_append] at hlog
        rw [works_iff_of_erased hnum h hlog
          (fun x hx => (hmem x (.inr (.inr hx))).trans (hout x hx)) fun hret => ⟨?_, ?_⟩]
        · exact ⟨fun hk _ => ⟨hk, fun _ => hroom⟩, fun hk => (hk hfirst).1⟩
        · apply isZero_of_newRecord page
          intro j hj
          rw [hwritten hret j (by omega), herased _ (by omega)]
          exact UInt8.toBitVec_inj.mp BitVec.allOnes_and
        · intro x hx hlt
          rw [hmem x (.inr (.inl (by omega))), herased x hlt]
      · rw [append_fault _ page 0 (by omega)] at h
        refine iff_of_false ?_ fun hk => hroom ((hk hfirst).2 hblocks)
        rintro ⟨ret, fd', heq, -⟩
        rw [h] at heq
        cases heq
    · rw [if_pos (Bool.eq_false_of_not_eq_true hok)] at h
      rw [works_iff_of_erased hnum h hops hout fun hret => absurd hret (by decide)]
      refine ⟨fun hk _ => ⟨hk, fun hblocks => ?_⟩, fun hk => (hk hfirst).1⟩
      exact absurd (hall.mpr fun j _ hj => hblocks j (by omega)) hok
  · have hnone := eraseBlocks_none (c := c) fd (Bool.eq_false_of_not_eq_true hfirst) hnblocks
    rw [hnone] at h
    simp only [if_true] at h
    exact iff_of_true (works_of_error h (by decide)) fun hk => absurd hk hfirst

/-- The run on a device that can be opened. -/
private theorem mtdResetbc_of_opens (fd : Fd) (hopens : c.opens = true) :
    mtdResetbc c fd = match c.scan fd.mem c.numBc 0 c.page 0 with
      | .unexpected => .ok (-2, fd)
      | .stop page i lastCount =>
        if lastCount = 0 then .ok (0, fd)
        else if i = c.numBc then
          if (c.eraseBlocks fd 0 c.d.nblocks).2 = false then
            .ok (-3, (c.eraseBlocks fd 0 c.d.nblocks).1)
          else c.append (c.eraseBlocks fd 0 c.d.nblocks).1 page 0
        else c.append fd page i := by
  rw [mtdResetbc]
  exact if_neg (by rw [hopens]; decide)

/-- The run is right exactly under its condition. -/
theorem works_iff_of_opens (hopens : c.opens = true) : c.Works fd ↔ c.Resettable fd.mem := by
  have hrun := mtdResetbc_of_opens fd hopens
  rcases scan_cases (c := c) fd.mem with ⟨hscan, hno⟩ | ⟨page, i, hscan, hstops⟩
  · rw [hscan] at hrun
    refine iff_of_true (works_of_error hrun (by decide)) ⟨fun i hi => absurd hi (hno i),
      fun i hi => absurd hi (hno i), fun hi => absurd hi (hno _)⟩
  · rw [hscan] at hrun
    simp only at hrun
    -- the last count is zero already, or it is reset in place of a full log, or behind the last
    -- record
    by_cases hlast : c.lastCount fd.mem i = 0
    · rw [if_pos hlast] at hrun
      rw [works_iff_of_kept hrun]
      constructor
      · intro hex
        refine ⟨fun _ _ _ => hex, fun i' hi' _ hne => ?_, fun hi' hne => ?_⟩
        · rw [← hstops.eq hi'] at hne
          exact absurd hlast hne
        · rw [← hstops.eq hi'] at hne
          exact absurd hlast hne
      · exact fun h => h.kept i hstops hlast
    · rw [if_neg hlast] at hrun
      -- the last count is not zero, so there is a record
      have hnum : 0 < c.numBc := by
        have hle := hstops.le
        refine Nat.pos_of_ne_zero fun hzero => hlast ?_
        rw [show i = 0 by omega]
        rfl
      by_cases hfull : i = c.numBc
      · rw [if_pos hfull] at hrun
        rw [works_iff_of_full hnum hrun]
        constructor
        · intro h
          refine ⟨fun i' hi' hzero => ?_, fun i' hi' hlt => ?_, fun _ _ => h⟩
          · rw [← hstops.eq hi'] at hzero
            exact absurd hzero hlast
          · have heq := hstops.eq hi'
            omega
        · intro h
          rw [hfull] at hstops hlast
          exact h.full hstops hlast
      · rw [if_neg hfull] at hrun
        have hlt : i < c.numBc := by
          have hle := hstops.le
          omega
        rw [works_iff_of_append hlt hrun]
        constructor
        · intro h
          refine ⟨fun i' hi' hzero => ?_, fun i' hi' _ _ => ?_, fun hi' => ?_⟩
          · rw [← hstops.eq hi'] at hzero
            exact absurd hzero hlast
          · rwa [← hstops.eq hi']
          · exact absurd (hstops.eq hi') hfull
        · exact fun h => h.appended i hstops hlt hlast

/-- The counter of any device is reset exactly if the device cannot be opened or its content is
`Resettable`. -/
theorem works_iff_resettable (c : Config) (fd : Fd) :
    c.Works fd ↔ (c.opens = true → c.Resettable fd.mem) := by
  by_cases hopens : c.opens = true
  · rw [works_iff_of_opens hopens]
    exact ⟨fun h _ => h, fun h => h hopens⟩
  · refine iff_of_true (works_of_error ?_ (show (-1 : Int) ≠ 0 by decide)) fun h => absurd h hopens
    rw [mtdResetbc, if_pos (Bool.eq_false_of_not_eq_true hopens)]

end Config

/-! ### Large pages -/

private theorem largePages_pos : 0 < 8192 := by decide

private theorem largePages_dvd : 8192 ∣ 8192 := by decide

private theorem largePages_lt : 8192 < 2 ^ 32 := by decide

/-- A device with pages of 4096 bytes. -/
def largePages : Config where
  machine := .little
  d :=
    { mtdtype := .nandflash
      erasesize := 8192
      size := 8192
      bad := fun _ => false
      eraseFault := fun _ => false
      writeFault := fun _ => none
      erasesize_pos := largePages_pos
      size_dvd := largePages_dvd
      size_lt := largePages_lt }
  writesize := 4096
  page := fun _ => 0
  opens := true
  readFault := fun _ _ => none

/-- One record with count 1. -/
def oneRecord : Mem := fun x =>
  [0x11, 0x08, 0x11, 0x20, 1, 0, 0, 0, 0x12, 0x08, 0x11, 0x20].getD x 0xff

theorem largePages_not_works : ¬largePages.Works ⟨0, oneRecord, []⟩ := by
  intro h
  have hresettable := (Config.works_iff_of_opens rfl).mp h
  have hstops : largePages.Stops oneRecord 1 := by
    refine ⟨by decide, fun j hj => ?_, .inr (by decide)⟩
    rw [show j = 0 by omega]
    decide
  have hroom := (hresettable.appended 1 hstops (by decide) (by decide)).2
  exact absurd hroom (by decide)

end HandsomeMod.Native.MtdResetbc
