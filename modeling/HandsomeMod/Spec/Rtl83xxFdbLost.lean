import HandsomeMod.ForStd.Run
import HandsomeMod.Native.Rtl83xxFdb

/-!
# The forwarding database stores nothing

`rtl83xx_write_hash` stores zeros instead of the words it is given, and the command of
`rtl83xx_write_cam` is a read. So an add that returns 0 leaves its entry in the tables only if
it was there before, and a delete never removes an entry of the CAM.
-/

namespace HandsomeMod.Native.Rtl83xx.Fdb

open HandsomeMod.ForStd

variable {t : L2} {addr : Mac} {vid : Vid}

/-! ### Table commands -/

/-- The command of `rtl83xx_write_hash` does write, but the data registers hold zeros. -/
private theorem writeHash_eq (t : L2) (idx : U32) (r : Words) :
    writeHash t idx r =
      { t with hash := Function.update t.hash (idx.setWidth 13) ⟨0, 0, 0⟩, data := ⟨0, 0, 0⟩ } := by
  unfold writeHash L2.exec
  dsimp only
  rw [getLsbD_cmd _ idx _ (by decide), getLsbD_cmd _ idx _ (by decide),
    getLsbD_cmd _ idx _ (by decide), getLsbD_cmd _ idx _ (by decide),
    setWidth_cmd (k := 13) _ idx _ (by decide) (by decide)]
  rfl

/-- The command of `rtl83xx_write_cam` is a read. -/
private theorem writeCam_eq (t : L2) (idx : U32) (r : Words) :
    writeCam t idx r = { t with data := t.cam (idx.setWidth 6) } := by
  unfold writeCam L2.exec
  dsimp only
  rw [getLsbD_cmd _ idx _ (by decide), getLsbD_cmd _ idx _ (by decide),
    getLsbD_cmd _ idx _ (by decide), getLsbD_cmd _ idx _ (by decide),
    setWidth_cmd (k := 6) _ idx _ (by decide) (by decide)]
  rfl

/-- A slot of a hash bucket is read. -/
private theorem readL2EntryUsingHash_eq (t : L2) (hash position : U32) :
    readL2EntryUsingHash t hash position =
      (entryOf (t.hash (((hash <<< 2) ||| position).setWidth 13)),
        decode (t.hash (((hash <<< 2) ||| position).setWidth 13))) := by
  unfold readL2EntryUsingHash L2.exec
  dsimp only
  have hzero : 0#32 <<< 14 ||| hash <<< 2 = hash <<< 2 := by
    rw [BitVec.zero_shiftLeft, BitVec.zero_or]
  rw [hzero]
  generalize (hash <<< 2) ||| position = idx
  rw [getLsbD_cmd _ idx _ (by decide), getLsbD_cmd _ idx _ (by decide),
    getLsbD_cmd _ idx _ (by decide), getLsbD_cmd _ idx _ (by decide),
    setWidth_cmd (k := 13) _ idx _ (by decide) (by decide)]
  rfl

/-- A slot of the CAM is read. -/
private theorem readCam_eq (t : L2) (idx : U32) :
    readCam t idx = (entryOf (t.cam (idx.setWidth 6)), decode (t.cam (idx.setWidth 6))) := by
  unfold readCam L2.exec
  dsimp only
  rw [getLsbD_cmd _ idx _ (by decide), getLsbD_cmd _ idx _ (by decide),
    getLsbD_cmd _ idx _ (by decide), getLsbD_cmd _ idx _ (by decide),
    setWidth_cmd (k := 6) _ idx _ (by decide) (by decide)]
  rfl

/-! ### Entries -/

/-- Bit `j` of the MAC address of an entry is bit `j + 12` of its two last words. -/
private theorem getLsbD_decode_mac (r : Words) {j : Nat} (hj : j < 48) :
    (decode r).mac.getLsbD j = (entryOf r).getLsbD (j + 12) := by
  unfold decode entryOf
  simp only [BitVec.getLsbD_append, BitVec.getLsbD_setWidth, BitVec.getLsbD_or,
    BitVec.getLsbD_and, BitVec.getLsbD_shiftLeft, BitVec.getLsbD_ushiftRight]
  interval_cases j <;> simp

/-- The VLAN of an entry is in its lowest bits. -/
private theorem getLsbD_decode_vid (r : Words) {j : Nat} (hj : j < 12) :
    (decode r).vid.getLsbD j = (entryOf r).getLsbD j := by
  unfold decode entryOf
  simp only [BitVec.getLsbD_setWidth, BitVec.getLsbD_or, BitVec.getLsbD_and,
    BitVec.getLsbD_shiftLeft]
  interval_cases j <;> simp

/-- The key of an entry has 60 bits. -/
private theorem getLsbD_keyMask : ∀ j < 64,
    (0x0fffffffffffffff#64).getLsbD j = decide (j < 60) := by decide

/-- A key is the address and, below it, the VLAN. -/
private theorem getLsbD_key (addr : Mac) (vid : Vid) {j : Nat} (hj : j < 64) :
    ((addr.setWidth 64 <<< 12) ||| vid.setWidth 64).getLsbD j =
      if j < 12 then vid.getLsbD j else addr.getLsbD (j - 12) := by
  simp only [BitVec.getLsbD_or, BitVec.getLsbD_shiftLeft, BitVec.getLsbD_setWidth]
  by_cases h : j < 12
  · simp [h, hj]
  · have hlt : j - 12 < 64 := by omega
    have hvid : vid.getLsbD j = false := BitVec.getLsbD_of_ge vid j (by omega)
    simp [h, hj, hlt, hvid]

/-- The comparison of the code is the comparison of the decoded MAC address and VLAN. -/
private theorem sameKey_iff (r : Words) :
    sameKey (entryOf r) (addr.setWidth 64) vid = true ↔
      (decode r).mac = addr ∧ (decode r).vid = vid := by
  unfold sameKey
  rw [beq_iff_eq]
  constructor
  · intro h
    -- the key has the VLAN in its low 12 bits and the address in the 48 above
    have hbit : ∀ j < 60, (entryOf r).getLsbD j =
        if j < 12 then vid.getLsbD j else addr.getLsbD (j - 12) := by
      intro j hj
      have hj64 : j < 64 := by omega
      rw [← getLsbD_key addr vid hj64, ← h, BitVec.getLsbD_and, getLsbD_keyMask j hj64]
      simp [hj]
    constructor
    · apply BitVec.eq_of_getLsbD_eq
      intro j hj
      rw [getLsbD_decode_mac r hj, hbit (j + 12) (by omega), if_neg (by omega),
        Nat.add_sub_cancel]
    · apply BitVec.eq_of_getLsbD_eq
      intro j hj
      rw [getLsbD_decode_vid r hj, hbit j (by omega), if_pos hj]
  · rintro ⟨rfl, rfl⟩
    apply BitVec.eq_of_getLsbD_eq
    intro j hj
    rw [getLsbD_key _ _ hj, BitVec.getLsbD_and, getLsbD_keyMask j hj]
    -- the VLAN, the address, and nothing above them
    by_cases h12 : j < 12
    · have h60 : j < 60 := by omega
      rw [if_pos h12, getLsbD_decode_vid r h12]
      simp [h60]
    · rw [if_neg h12]
      by_cases h60 : j < 60
      · rw [getLsbD_decode_mac r (by omega), Nat.sub_add_cancel (by omega)]
        simp [h60]
      · rw [BitVec.getLsbD_of_ge _ (j - 12) (by omega)]
        simp [h60]

/-! ### Cells -/

/-- An entry of one of the two tables. -/
inductive Cell where
  | hash (idx : BitVec 13)
  | cam (idx : BitVec 6)
  deriving DecidableEq

def L2.cell (t : L2) : Cell → Words
  | .hash idx => t.hash idx
  | .cam idx => t.cam idx

/-- The cell has a valid entry for a MAC address and a VLAN. -/
def L2.Holds (t : L2) (c : Cell) (addr : Mac) (vid : Vid) : Prop :=
  (decode (t.cell c)).valid ∧ (decode (t.cell c)).mac = addr ∧ (decode (t.cell c)).vid = vid

/-- The two calls differ from `t` in one cell of the hash table at most, which is empty then. -/
structure Erased (t t' : L2) (lost : Option Cell) : Prop where
  cell : ∀ c, some c ≠ lost → t'.cell c = t.cell c
  lost : ∀ c, some c = lost → t'.cell c = ⟨0, 0, 0⟩

/-- Writing a slot of a bucket loses what stood there. -/
private theorem erased_writeHash (t : L2) (idx : U32) (r : Words) :
    Erased t (writeHash t idx r) (some (.hash (idx.setWidth 13))) where
  cell c hc := by
    rw [writeHash_eq]
    cases c with
    | hash i =>
      have hne : i ≠ idx.setWidth 13 := fun h => hc (by rw [h])
      exact Function.update_of_ne hne _ _
    | cam i => rfl
  lost c hc := by
    rw [writeHash_eq]
    cases hc
    exact Function.update_self _ _ _

/-- Writing a slot of the CAM loses nothing of the buckets. -/
private theorem erased_writeCam (t : L2) (idx : U32) (r : Words) : Erased t (writeCam t idx r)
    none where
  cell c _ := by
    rw [writeCam_eq]
    cases c <;> rfl
  lost _ h := by cases h

/-- Only the lost slot holds something else. -/
theorem Erased.holds_iff {t' : L2} {lost : Option Cell} (h : Erased t t' lost) (c : Cell) :
    t'.Holds c addr vid ↔ some c ≠ lost ∧ t.Holds c addr vid := by
  by_cases hc : some c = lost
  · constructor
    · intro hh
      have hvalid := hh.1
      rw [h.lost c hc] at hvalid
      cases hvalid
    · intro hh
      exact absurd hc hh.1
  · unfold L2.Holds
    rw [h.cell c hc]
    simp [hc]

/-! ### Dump -/

/-- The index that the dump reads at. -/
private theorem dump_idx (i : Nat) :
    ((BitVec.ofNat 32 (i >>> 2) <<< 2) ||| BitVec.ofNat 32 (i &&& 3)).setWidth 13 =
      BitVec.ofNat 13 i := by
  apply BitVec.eq_of_getLsbD_eq
  intro j hj
  have hj32 : j < 32 := by omega
  -- 3 is the mask of the two low bits
  have hthree : Nat.testBit 3 j = decide (j < 2) := by
    interval_cases j <;> decide
  simp only [BitVec.getLsbD_setWidth, BitVec.getLsbD_or, BitVec.getLsbD_shiftLeft,
    BitVec.getLsbD_ofNat, Nat.testBit_shiftRight, Nat.testBit_and, hthree]
  by_cases h : j < 2
  · simp [h, hj, hj32]
  · have hlt : j - 2 < 32 := by omega
    have hadd : 2 + (j - 2) = j := by omega
    simp [h, hj, hj32, hlt, hadd]

/-- A dump reports every valid entry with the port. -/
private theorem mem_portFdbDump {c : Cell} {port : Nat} (h : t.Holds c addr vid)
    (hport : (decode (t.cell c)).port.toNat = port) :
    ∃ isStatic, (addr, vid, isStatic) ∈ portFdbDump t port := by
  obtain ⟨hvalid, hmac, hvid⟩ := h
  refine ⟨(decode (t.cell c)).isStatic, ?_⟩
  unfold portFdbDump
  rw [List.mem_append]
  -- the dump reads the hash buckets by their number, then the CAM
  cases c with
  | hash idx =>
    refine Or.inl (List.mem_filterMap.mpr ⟨idx.toNat, ?_, ?_⟩)
    · exact List.mem_range.mpr idx.isLt
    · rw [readL2EntryUsingHash_eq, dump_idx, BitVec.ofNat_toNat, BitVec.setWidth_eq]
      refine (if_pos ⟨hvalid, hport⟩).trans ?_
      rw [← hmac, ← hvid]
      rfl
  | cam idx =>
    refine Or.inr (List.mem_filterMap.mpr ⟨idx.toNat, ?_, ?_⟩)
    · exact List.mem_range.mpr idx.isLt
    · have hidx : (BitVec.ofNat 32 idx.toNat).setWidth 6 = idx := by
        rw [BitVec.ofNat_toNat, BitVec.setWidth_setWidth_of_le _ (by decide), BitVec.setWidth_eq]
      rw [readCam_eq, hidx]
      refine (if_pos ⟨hvalid, hport⟩).trans ?_
      rw [← hmac, ← hvid]
      rfl

/-! ### Calls -/

/-- Of the cells other than `lost`, exactly one has a valid entry for `addr` and `vid`, and it names
    the port. -/
def L2.StoredOnce (t : L2) (lost : Option Cell) (port : Nat) (addr : Mac) (vid : Vid) : Prop :=
  ∃ c, some c ≠ lost ∧ t.Holds c addr vid ∧ (decode (t.cell c)).port.toNat = port ∧
    ∀ c', some c' ≠ lost → t.Holds c' addr vid → c' = c

/-- The entries of all other addresses and VLANs stay as they are. -/
def Framed (t t' : L2) (addr : Mac) (vid : Vid) : Prop :=
  ∀ c a v, (a, v) ≠ (addr, vid) → t.Holds c a v ∨ t'.Holds c a v → t'.cell c = t.cell c

/-- The tables behave as a finite map in a call that takes them from `t` to `t'`. -/
def MapLike (algo : Bool) (t : L2) : Call → L2 → Prop
  | .add port addr vid, t' => ((portFdbAdd algo t port addr vid).1 = 0 →
      (∃ isStatic, (addr, vid, isStatic) ∈ portFdbDump t' port) ∧
        t'.StoredOnce none port addr vid) ∧ Framed t t' addr vid
  | .del addr vid, t' => ((portFdbDel algo t addr vid).1 = 0 → ∀ c, ¬t'.Holds c addr vid) ∧
      Framed t t' addr vid

/-- The cell of the hash table that a search picks. -/
def hashHit (algo : Bool) (t : L2) (addr : Mac) (vid : Vid) (accept : U64 → L2Entry → Bool) :
    Option Cell :=
  let key := hashKey algo (addr.setWidth 64) (vid.setWidth 32)
  (findHash t key accept).map fun i => .hash ((bucketIdx key i).setWidth 13)

/-- An add is harmless if it finds no place, or if its entry is in the tables already, once besides
    the cell that is erased instead of written. A delete is harmless if it finds nothing, or if the
    cell that it erases has the only entry. -/
def Harmless (algo : Bool) (t : L2) : Call → Prop
  | .add port addr vid => (portFdbAdd algo t port addr vid).1 ≠ 0 ∨
      t.StoredOnce (hashHit algo t addr vid
        fun entry e => !e.valid || sameKey entry (addr.setWidth 64) vid) port addr vid
  | .del addr vid => (portFdbDel algo t addr vid).1 ≠ 0 ∨
      ∀ c, t.Holds c addr vid → some c = hashHit algo t addr vid
        fun entry e => e.valid && sameKey entry (addr.setWidth 64) vid

/-- An address is stored once beside the lost slot. -/
theorem Erased.storedOnce_iff {t' : L2} {lost : Option Cell} (h : Erased t t' lost) {port : Nat} :
    t'.StoredOnce none port addr vid ↔ t.StoredOnce lost port addr vid := by
  have hsome : ∀ c : Cell, some c ≠ none := fun c => Option.some_ne_none c
  unfold L2.StoredOnce
  constructor
  -- an entry in the table behind is one that is not the erased one
  · rintro ⟨c, -, hc, hport, honly⟩
    obtain ⟨hne, hc'⟩ := (h.holds_iff c).mp hc
    rw [h.cell c hne] at hport
    exact ⟨c, hne, hc', hport, fun c' hne' hh =>
      honly c' (hsome c') ((h.holds_iff c').mpr ⟨hne', hh⟩)⟩
  · rintro ⟨c, hne, hc, hport, honly⟩
    refine ⟨c, hsome c, (h.holds_iff c).mpr ⟨hne, hc⟩, ?_, fun c' _ hh => ?_⟩
    · rw [h.cell c hne]
      exact hport
    · obtain ⟨hne', hc'⟩ := (h.holds_iff c').mp hh
      exact honly c' hne' hc'

/-- The cell that is erased had no valid entry or the one of the call. -/
theorem Erased.framed {t' : L2} {lost : Option Cell} (h : Erased t t' lost)
    (hlost : ∀ c, some c = lost → (decode (t.cell c)).valid → t.Holds c addr vid) :
    Framed t t' addr vid := by
  intro c a v hne hh
  by_cases hc : some c = lost
  · have hold : t.Holds c a v := by
      obtain hh | hh := hh
      · exact hh
      · exact ((h.holds_iff c).mp hh).2
    obtain ⟨-, hmac, hvid⟩ := hlost c hc hold.1
    obtain ⟨-, hmac', hvid'⟩ := hold
    exact absurd (Prod.ext (hmac'.symm.trans hmac) (hvid'.symm.trans hvid)) hne
  · exact h.cell c hc

/-- What the search of an add picks: an invalid entry, or the one of the call. -/
private theorem findHash_some {key : U32} {accept : U64 → L2Entry → Bool} {i : Nat}
    (h : findHash t key accept = some i) :
    accept (entryOf (t.hash ((bucketIdx key i).setWidth 13)))
      (decode (t.hash ((bucketIdx key i).setWidth 13))) = true := by
  have hhit := List.find?_some h
  rw [readL2EntryUsingHash_eq] at hhit
  exact hhit

/-- How an add changes the tables. -/
theorem portFdbAdd_spec (algo : Bool) (t : L2) (port : Nat) (addr : Mac) (vid : Vid) :
    (portFdbAdd algo t port addr vid).1 ≠ 0 ∧ (portFdbAdd algo t port addr vid).2 = t ∨
    (portFdbAdd algo t port addr vid).1 = 0 ∧ Erased t (portFdbAdd algo t port addr vid).2
      (hashHit algo t addr vid fun entry e => !e.valid || sameKey entry (addr.setWidth 64) vid) ∧
      ∀ c, some c = hashHit algo t addr vid
          (fun entry e => !e.valid || sameKey entry (addr.setWidth 64) vid) →
        (decode (t.cell c)).valid → t.Holds c addr vid := by
  unfold portFdbAdd hashHit
  dsimp only
  cases hhash : findHash t (hashKey algo (addr.setWidth 64) (vid.setWidth 32))
      fun entry e => !e.valid || sameKey entry (addr.setWidth 64) vid with
  | some i =>
    refine Or.inr ⟨rfl, erased_writeHash t _ (addWords port (addr.setWidth 64) vid), fun c hc hvalid => ?_⟩
    obtain rfl := Option.some.inj hc
    have hhit := findHash_some hhash
    rw [Bool.or_eq_true, sameKey_iff] at hhit
    -- the bucket was free, or held the same address and VLAN
    obtain hinvalid | ⟨hmac, hvid⟩ := hhit
    · change (decode (t.hash _)).valid = true at hvalid
      rw [hvalid] at hinvalid
      cases hinvalid
    · exact ⟨hvalid, hmac, hvid⟩
  -- no bucket left: the entry goes to the CAM, or the call is refused
  | none =>
    dsimp only
    cases findCam t fun entry e => !e.valid || sameKey entry (addr.setWidth 64) vid with
    | some i => exact Or.inr ⟨rfl, erased_writeCam t _ _, fun c hc => by cases hc⟩
    | none => exact Or.inl ⟨fun h => absurd h (show -enotsupp ≠ 0 by decide), rfl⟩

/-- How a delete changes the tables. -/
theorem portFdbDel_spec (algo : Bool) (t : L2) (addr : Mac) (vid : Vid) :
    (portFdbDel algo t addr vid).1 ≠ 0 ∧ (portFdbDel algo t addr vid).2 = t ∨
    (portFdbDel algo t addr vid).1 = 0 ∧ Erased t (portFdbDel algo t addr vid).2
      (hashHit algo t addr vid fun entry e => e.valid && sameKey entry (addr.setWidth 64) vid) ∧
      ∀ c, some c = hashHit algo t addr vid
          (fun entry e => e.valid && sameKey entry (addr.setWidth 64) vid) →
        t.Holds c addr vid := by
  unfold portFdbDel hashHit
  dsimp only
  cases hhash : findHash t (hashKey algo (addr.setWidth 64) (vid.setWidth 32))
      fun entry e => e.valid && sameKey entry (addr.setWidth 64) vid with
  -- the entry is in its bucket, and is invalidated
  | some i =>
    refine Or.inr ⟨rfl, erased_writeHash t _ ⟨0, 0, 0⟩, fun c hc => ?_⟩
    obtain rfl := Option.some.inj hc
    have hhit := findHash_some hhash
    rw [Bool.and_eq_true, sameKey_iff] at hhit
    exact hhit
  | none =>
    dsimp only
    cases findCam t fun entry _ => sameKey entry (addr.setWidth 64) vid with
    | some i => exact Or.inr ⟨rfl, erased_writeCam t _ _, fun c hc => by cases hc⟩
    | none => exact Or.inl ⟨fun h => absurd h (show -enoent ≠ 0 by decide), rfl⟩

/-- Nothing else is changed where nothing is. -/
private theorem framed_self (t : L2) (addr : Mac) (vid : Vid) : Framed t t addr vid :=
  fun _ _ _ _ _ => rfl

/-- A call behaves like one on a finite map exactly if it is harmless. -/
theorem mapLike_iff (algo : Bool) (t : L2) (q : Call) :
    MapLike algo t q (call algo t q).2 ↔ Harmless algo t q := by
  -- a call that fails leaves the table; one that does not writes the one cell it hit
  cases q with
  | add port addr vid =>
    unfold MapLike Harmless call
    obtain ⟨hfail, hsame⟩ | ⟨hret, herased, hlost⟩ := portFdbAdd_spec algo t port addr vid
    · rw [hsame]
      simp [hfail, framed_self]
    · simp only [hret, ne_eq, not_true_eq_false, false_or, true_implies,
        herased.framed hlost, and_true, herased.storedOnce_iff]
      constructor
      · exact fun h => h.2
      · intro h
        obtain ⟨c, -, hc, hport, -⟩ := herased.storedOnce_iff.mpr h
        exact ⟨mem_portFdbDump hc hport, h⟩
  | del addr vid =>
    unfold MapLike Harmless call
    obtain ⟨hfail, hsame⟩ | ⟨hret, herased, hlost⟩ := portFdbDel_spec algo t addr vid
    · rw [hsame]
      simp [hfail, framed_self]
    · simp only [hret, ne_eq, not_true_eq_false, false_or, true_implies,
        herased.framed fun c hc _ => hlost c hc, and_true, herased.holds_iff]
      constructor
      · intro h c hc
        by_contra hne
        exact h c ⟨hne, hc⟩
      · intro h c hc
        exact hc.1 (h c hc.2)

/-- The forwarding database behaves as a finite map in a run of adds and deletes exactly if all of
    them are harmless: nothing is ever stored. -/
theorem run_mapLike_iff (algo : Bool) (t : L2) (calls : List Call) :
    Along (fun t q => (call algo t q).2) (MapLike algo) t calls ↔
      Along (fun t q => (call algo t q).2) (fun t q _ => Harmless algo t q) t calls :=
  Along.congr (mapLike_iff algo)

/-! ### From empty tables -/

/-- No valid entry anywhere. -/
def L2.Empty (t : L2) : Prop := ∀ c, ¬(decode (t.cell c)).valid

/-- Writing an invalid entry keeps empty tables empty. -/
theorem Erased.empty {t' : L2} {lost : Option Cell} (h : Erased t t' lost) (ht : t.Empty) :
    t'.Empty := by
  intro c hvalid
  exact ht c ((h.holds_iff c).mp ⟨hvalid, rfl, rfl⟩).2.1

/-- Deleting from empty tables leaves them empty. -/
theorem L2.Empty.call {algo : Bool} (ht : t.Empty) (q : Call) : (call algo t q).2.Empty := by
  cases q with
  | add port addr vid =>
    obtain ⟨-, hsame⟩ | ⟨-, herased, -⟩ := portFdbAdd_spec algo t port addr vid
    · exact hsame.symm ▸ ht
    · exact herased.empty ht
  | del addr vid =>
    obtain ⟨-, hsame⟩ | ⟨-, herased, -⟩ := portFdbDel_spec algo t addr vid
    · exact hsame.symm ▸ ht
    · exact herased.empty ht

/-- The first entry of the bucket is free. -/
theorem portFdbAdd_empty (algo : Bool) (ht : t.Empty) (port : Nat) (addr : Mac) (vid : Vid) :
    (portFdbAdd algo t port addr vid).1 = 0 := by
  unfold portFdbAdd
  dsimp only
  -- the first slot of the bucket is free
  have hfree : findHash t (hashKey algo (addr.setWidth 64) (vid.setWidth 32))
      (fun entry e => !e.valid || sameKey entry (addr.setWidth 64) vid) = some 0 := by
    refine List.find?_cons_of_pos ?_
    rw [readL2EntryUsingHash_eq]
    have hinvalid := ht (.hash ((bucketIdx (hashKey algo (addr.setWidth 64) (vid.setWidth 32))
      0).setWidth 13))
    change (!(decode (t.hash _)).valid || _) = true
    rw [Bool.not_eq_true] at hinvalid
    change (decode (t.hash _)).valid = false at hinvalid
    unfold bucketIdx at hinvalid
    rw [hinvalid]
    rfl
  rw [hfree]

/-- From empty tables no add is harmless, although every add returns 0. -/
theorem run_empty_iff (algo : Bool) (calls : List Call) (ht : t.Empty) :
    Along (fun t q => (call algo t q).2) (MapLike algo) t calls ↔
      ∀ q ∈ calls, ∃ addr vid, q = .del addr vid := by
  -- an empty table answers every delete, and stays empty
  induction calls generalizing t with
  | nil =>
    constructor
    · intro _ q hq
      cases hq
    · exact fun _ => trivial
  | cons q calls ih =>
    have hhead : MapLike algo t q (call algo t q).2 ↔ ∃ addr vid, q = .del addr vid := by
      rw [mapLike_iff]
      cases q with
      | add port addr vid =>
        constructor
        -- an add succeeds here, but no valid cell holds the address behind it
        · rintro (hfail | ⟨c, -, hc, -⟩)
          · exact absurd (portFdbAdd_empty algo ht port addr vid) hfail
          · exact absurd hc.1 (ht c)
        · rintro ⟨addr', vid', h⟩
          cases h
      | del addr vid =>
        constructor
        · exact fun _ => ⟨addr, vid, rfl⟩
        · exact fun _ => Or.inr fun c hc => absurd hc.1 (ht c)
    rw [List.forall_mem_cons, ← hhead, ← ih (ht.call q)]
    exact Iff.rfl

/-- Tables as after a reset. -/
def emptyL2 : L2 where
  hash _ := ⟨0, 0, 0⟩
  cam _ := ⟨0, 0, 0⟩
  data := ⟨0, 0, 0⟩

/-- The tables of the examples are empty. -/
theorem emptyL2_empty : emptyL2.Empty := by
  intro c
  have hzero : emptyL2.cell c = ⟨0, 0, 0⟩ := by
    cases c <;> rfl
  rw [hzero]
  decide

/-- An add that returns 0 and stores nothing. -/
theorem run_add_not_mapLike :
    (call false emptyL2 (.add 5 0x001122334455#48 1#12)).1 = 0 ∧
    ¬Along (fun t q => (call false t q).2) (MapLike false) emptyL2
      [.add 5 0x001122334455#48 1#12] := by
  refine ⟨portFdbAdd_empty false emptyL2_empty _ _ _, fun h => ?_⟩
  obtain ⟨addr, vid, hdel⟩ :=
    (run_empty_iff false _ emptyL2_empty).mp h _ (List.mem_singleton_self _)
  cases hdel

end HandsomeMod.Native.Rtl83xx.Fdb
