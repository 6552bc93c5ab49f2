import HandsomeMod.Spec.NvramFormat

/-!
# What `nvram_commit` leaves behind

The condition under which `nvram_commit` stays inside the mapping, the image it writes then, and the
table that `_nvram_rehash` reads from it.
-/

namespace HandsomeMod.Native.Nvram

open ForStd

variable {d : Device}

/-- The partition is inside of what is mapped. -/
theorem partSize_le_mapLen (d : Device) : d.partSize ≤ d.mapLen := by
  have hdiv := Nat.div_add_mod (d.partSize + d.page - 1) d.page
  have hmod := Nat.mod_lt (d.partSize + d.page - 1) d.page_pos
  have hpage := d.page_pos
  rw [Device.mapLen, Nat.mul_comm]
  omega

/-- The mapped length is a multiple of four. -/
private theorem four_dvd_mapLen (d : Device) : 4 ∣ d.mapLen := Dvd.dvd.mul_left d.four_dvd_page _

/-- The room behind an offset of the partition. -/
theorem room_eq {offset : Nat} (h : offset ≤ d.partSize) : room d offset = d.partSize - offset := by
  rw [room, if_pos h]

/-! ### The header in the image -/

/-- The header has its size. -/
theorem length_headerBytes (header : Header) : header.bytes.length = sizeofHeader := by
  simp [Header.bytes, le32, sizeofHeader]

/-- A header that was written is read again. -/
theorem bytesAt_headerBytes (m : Mem) (pos : Nat) (header : Header) :
    bytesAt (writeBytes m pos header.bytes) pos sizeofHeader = header.bytes := by
  have hself := bytesAt_writeBytes_self m pos header.bytes
  rwa [length_headerBytes] at hself

/-- A word by its bytes. -/
private theorem word_eq {m : Mem} {pos : Nat} {v : UInt32}
    (h : ∀ i < 4, m (pos + i) = storeLE 4 v.toNat i) : word m pos = v := by
  have hload : loadLE 4 (fun i => m (pos + i)) = loadLE 4 (storeLE 4 v.toNat) := by
    apply loadBE_congr
    intro i hi
    exact h _ (by omega)
  rw [word, hload, loadLE_storeLE v.toNat_lt, UInt32.ofNat_toNat]

/-- A header that was written is read back. -/
theorem readHeader_writeBytes (m : Mem) (pos : Nat) (header : Header) :
    readHeader (writeBytes m pos header.bytes) pos = header := by
  have hlen := length_headerBytes header
  rw [sizeofHeader] at hlen
  -- the five words of the header lie at 0, 4, 8, 12 and 16
  have hbyte : ∀ k i, k + i < 20 →
      writeBytes m pos header.bytes (pos + k + i) = header.bytes.getD (k + i) 0 := by
    intro k i hi
    rw [Nat.add_assoc]
    exact writeBytes_add m pos (by omega)
  have hmagic : word (writeBytes m pos header.bytes) pos = header.magic := by
    apply word_eq
    intro i hi
    rw [show pos + i = pos + 0 + i by omega, hbyte 0 i (by omega)]
    interval_cases i <;> rfl
  have hlength : word (writeBytes m pos header.bytes) (pos + 4) = header.len := by
    apply word_eq
    intro i hi
    rw [hbyte 4 i (by omega)]
    interval_cases i <;> rfl
  have hcrc : word (writeBytes m pos header.bytes) (pos + 8) = header.crcVerInit := by
    apply word_eq
    intro i hi
    rw [hbyte 8 i (by omega)]
    interval_cases i <;> rfl
  have hconfig : word (writeBytes m pos header.bytes) (pos + 12) = header.configRefresh := by
    apply word_eq
    intro i hi
    rw [hbyte 12 i (by omega)]
    interval_cases i <;> rfl
  have hncdl : word (writeBytes m pos header.bytes) (pos + 16) = header.configNcdl := by
    apply word_eq
    intro i hi
    rw [hbyte 16 i (by omega)]
    interval_cases i <;> rfl
  rw [readHeader, hmagic, hlength, hcrc, hconfig, hncdl]

/-! ### The CRC -/

/-- The checksum goes on behind the first part. -/
theorem hndcrc8_append (l l' : List UInt8) (crc : UInt8) :
    hndcrc8 (l ++ l') crc = hndcrc8 l' (hndcrc8 l crc) := List.foldl_append

/-- The CRC is only in the lowest byte of its word. -/
private theorem drop_le32_or (v : UInt32) (crc : UInt8) :
    (le32 (v ||| crc.toUInt32)).drop 1 = (le32 v).drop 1 := by
  have hbyte : ∀ i, 0 < i → i < 4 →
      storeLE 4 (v ||| crc.toUInt32).toNat i = storeLE 4 v.toNat i := by
    intro i hpos hi
    have hcrc : crc.toNat >>> (8 * (4 - 1 - (4 - 1 - i))) = 0 := by
      rw [Nat.shiftRight_eq_div_pow]
      apply Nat.div_eq_of_lt
      exact Nat.lt_of_lt_of_le crc.toNat_lt (Nat.pow_le_pow_right Nat.two_pos (by omega))
    simp only [storeLE, storeBE]
    rw [UInt32.toNat_or, UInt8.toNat_toUInt32, Nat.shiftRight_or_distrib, hcrc, Nat.or_zero]
  show [_, _, _] = [_, _, _]
  rw [hbyte 1 (by omega) (by omega), hbyte 2 (by omega) (by omega), hbyte 3 (by omega) (by omega)]

/-- Length and checksum change the header only in front of the part that is summed. -/
theorem drop_bytes_finishHeader (image : Mem) (offset : Nat) (header : Header) (len : Nat) :
    (finishHeader image offset header len).bytes.drop crcStart = header.bytes.drop crcStart := by
  have hdrop : ∀ header : Header, header.bytes.drop crcStart =
      (le32 header.crcVerInit).drop 1 ++ le32 header.configRefresh ++ le32 header.configNcdl :=
    fun _ => rfl
  rw [hdrop, hdrop]
  simp only [finishHeader]
  rw [drop_le32_or]

/-! ### Inside the mapping -/

/-- The padding ends behind the mapping: the address of the byte behind the first NUL is negative
    as an `int`, and less than 4 bytes are left there. -/
def PadOverrun (h : Handle d) (used : Nat) : Prop :=
  2 ^ 31 ≤ (d.base + (h.offset + sizeofHeader + used + 1)) % 2 ^ 32 ∧
    h.offset + sizeofHeader + used + 1 ≠ d.mapLen ∧
    d.mapLen < h.offset + sizeofHeader + used + 1 + 4

/-- An access of `nvram_commit` is outside the mapping. -/
def Faults (h : Handle d) : Prop :=
  d.partSize < h.offset + sizeofHeader ∨ d.mapLen ≤ h.offset + sizeofHeader + used h ∨
    PadOverrun h (used h)

/-- The padding ends behind the mapping where it starts there, or at addresses with bit 31 set. -/
private theorem padEnd_gt_iff (d : Device) (ptr : Nat) :
    ptr + 1 + padLen (d.base + (ptr + 1)) > d.mapLen ↔
      d.mapLen ≤ ptr ∨ 2 ^ 31 ≤ (d.base + (ptr + 1)) % 2 ^ 32 ∧ ptr + 1 ≠ d.mapLen ∧
        d.mapLen < ptr + 1 + 4 := by
  obtain ⟨m, hm⟩ := four_dvd_mapLen d
  obtain ⟨b, hb⟩ := Nat.dvd_trans d.four_dvd_page d.page_dvd_base
  have haddr : (d.base + (ptr + 1)) % 4 = (ptr + 1) % 4 := by omega
  rw [padLen_eq, haddr]
  generalize (d.base + (ptr + 1)) % 2 ^ 32 = a
  split
  · omega
  · split <;> omega

/-- The image after `nvram_commit`, before it is read again. -/
def committed (h : Handle d) : Handle d :=
  let ptr := h.offset + sizeofHeader + used h
  let image := writeData h (encode (packed h)) (padLen (d.base + (ptr + 1)))
  let header := finishHeader image h.offset (newHeader h) (roundup4 (ptr + 2 - h.offset))
  { h with image := writeBytes image h.offset header.bytes }

/-- The packed strings take what was computed. -/
private theorem length_encode_packed (h : Handle d) : (encode (packed h)).length = used h :=
  length_encode _

/-- A commit that pads past the mapping faults. -/
theorem nvramCommit_of_faults {h : Handle d} (hf : Faults h) :
    nvramCommit h = .error .outside := by
  simp only [nvramCommit]
  rw [writeTuples_eq, length_encode_packed]
  obtain hf | hf := hf
  · rw [if_pos hf]
  · split
    · rfl
    · rw [if_pos ((padEnd_gt_iff d _).mpr hf)]

/-- Another commit writes the strings and reads them again. -/
private theorem nvramCommit_eq_rehash {h : Handle d} (hf : ¬Faults h) :
    nvramCommit h = nvramRehash (committed h) := by
  obtain ⟨hpart, hpad⟩ := not_or.mp hf
  simp only [nvramCommit]
  rw [writeTuples_eq, length_encode_packed, if_neg hpart,
    if_neg fun hgt => hpad ((padEnd_gt_iff d _).mp hgt)]
  rfl

/-- Everything in front of the header stays. -/
theorem committed_before (h : Handle d) {i : Nat} (hi : i < h.offset) :
    (committed h).image i = h.image i := by
  simp only [committed, writeData]
  rw [writeBytes_of_lt _ hi, writeBytes_of_lt _ (by omega), writeBytes_of_lt _ (by omega),
    writeBytes_of_lt _ (by omega)]

/-- The data area starts with the packed tuples and a double NUL. -/
theorem dataBytes_committed {h : Handle d} (hf : ¬Faults h) :
    ∃ rest, dataBytes (committed h) = encode (packed h) ++ 0 :: rest := by
  obtain ⟨-, hpad⟩ := not_or.mp hf
  obtain ⟨hmap, -⟩ := not_or.mp hpad
  have hused := length_encode_packed h
  have hhead : ∀ header : Header,
      h.offset + header.bytes.length ≤ h.offset + sizeofHeader := fun header =>
    Nat.le_of_eq (congrArg _ (length_headerBytes header))
  -- behind the tuples there is one zero byte at least
  obtain ⟨n, hn⟩ : ∃ n, d.mapLen - (h.offset + sizeofHeader) = used h + (1 + n) :=
    ⟨d.mapLen - (h.offset + sizeofHeader) - used h - 1, by omega⟩
  have hone : ∀ (m : Mem) (pos : Nat), bytesAt m pos 1 = [m pos] := fun _ _ => rfl
  refine ⟨bytesAt (committed h).image (h.offset + sizeofHeader + used h + 1) n, ?_⟩
  have hoffset : (committed h).offset = h.offset := rfl
  rw [dataBytes, hoffset, hn, bytesAt_add, bytesAt_add, hone]
  congr 1
  · -- the padding starts behind the tuples
    simp only [committed, writeData]
    rw [bytesAt_writeBytes_after _ _ _ (hhead _), bytesAt_writeBytes_before _ _ (by omega), ← hused,
      bytesAt_writeBytes_self]
  · rw [List.singleton_append]
    congr 1
    simp only [committed, writeData]
    rw [writeBytes_of_le _ (Nat.le_trans (hhead _) (Nat.le_add_right ..)), hused]
    exact writeBytes_add (l := 0 :: _) (i := 0) _ _ (Nat.succ_pos _)

/-! ### Reading the image again -/

/-- The tuples of an image, as `_nvram_rehash` reads them. -/
def ImageHas (h : Handle d) (t : Tuple) : Prop :=
  ∃ ts, parse (dataBytes h).length (dataBytes h) = .ok ts ∧ t ∈ ts

/-- Values with room are all set. -/
theorem foldl_nvramSet (ts : List Tuple) (h : Handle d)
    (hfit : ∀ t ∈ ts, strlen t.2 + 1 ≤ room d h.offset) :
    ts.foldl (fun h t => (nvramSet h t.1 t.2).1) h =
      { h with table := ts.foldl (fun tab t => tab.set t.1 t.2) h.table } := by
  induction ts generalizing h with
  | nil => rfl
  | cons t ts ih =>
    have hset : (nvramSet h t.1 t.2).1 = { h with table := h.table.set t.1 t.2 } := by
      rw [nvramSet, if_neg (Nat.not_lt.mpr (hfit t (List.mem_cons_self ..)))]
    rw [List.foldl_cons, hset, ih]
    · rfl
    · intro u hu
      exact hfit u (List.mem_cons_of_mem _ hu)

/-- Setting a value keeps the image. -/
theorem nvramSet_frame (h : Handle d) (name value : CString) :
    (nvramSet h name value).1.image = h.image ∧ (nvramSet h name value).1.offset = h.offset := by
  rw [nvramSet]
  by_cases hlong : strlen value + 1 > room d h.offset
  · rw [if_pos hlong]
    exact ⟨rfl, rfl⟩
  · rw [if_neg hlong]
    exact ⟨rfl, rfl⟩

/-- So does setting one that is absent. -/
private theorem setAbsent_frame (h : Handle d) (t : Tuple) :
    (setAbsent h t).image = h.image ∧ (setAbsent h t).offset = h.offset := by
  rw [setAbsent]
  cases nvramGet h t.1 with
  | some value => exact ⟨rfl, rfl⟩
  | none => exact nvramSet_frame h t.1 t.2

/-- So do several. -/
private theorem foldl_setAbsent_frame (ts : List Tuple) (h : Handle d) :
    (ts.foldl setAbsent h).image = h.image ∧ (ts.foldl setAbsent h).offset = h.offset := by
  induction ts generalizing h with
  | nil => exact ⟨rfl, rfl⟩
  | cons t ts ih =>
    obtain ⟨himage, hoffset⟩ := setAbsent_frame h t
    rw [List.foldl_cons, (ih _).1, (ih _).2, himage, hoffset]
    exact ⟨rfl, rfl⟩

/-- A parameter that is there already stays; the others are set. -/
theorem nvramGet_foldl_setAbsent (ts : List Tuple) (h : Handle d) (hts : (Assoc.keys ts).Nodup)
    (hfit : ∀ t ∈ ts, strlen t.2 + 1 ≤ room d h.offset) (name : CString) :
    nvramGet (ts.foldl setAbsent h) name = (nvramGet h name).or (ts.lookup name) := by
  -- an absent name is set and fits, so later tuples of other names leave it
  induction ts generalizing h with
  | nil => simp
  | cons t ts ih =>
    obtain ⟨ht, hts⟩ := List.nodup_cons.mp hts
    have hget : nvramGet (setAbsent h t) name =
        (nvramGet h name).or (if t.1 = name then some t.2 else none) := by
      rw [setAbsent]
      split
      · rename_i value hvalue
        by_cases heq : t.1 = name
        · rw [← heq, hvalue]
          rfl
        · rw [if_neg heq, Option.or_none]
      · rename_i hnone
        rw [nvramSet, if_neg (Nat.not_lt.mpr (hfit t (List.mem_cons_self ..)))]
        show (h.table.set t.1 t.2).get name = _
        rw [Table.get_set]
        by_cases heq : t.1 = name
        · rw [if_pos heq.symm, if_pos heq, ← heq, hnone]
          rfl
        · rw [if_neg fun h => heq h.symm, if_neg heq, Option.or_none]
          rfl
    rw [List.foldl_cons, ih _ hts, hget, Assoc.lookup_cons, Option.or_assoc]
    · congr 1
      by_cases heq : t.1 = name
      · rw [if_pos heq, if_pos heq]
        rfl
      · rw [if_neg heq, if_neg heq]
        rfl
    · intro u hu
      rw [(setAbsent_frame h t).2]
      exact hfit u (List.mem_cons_of_mem _ hu)

/-- The handle that `_nvram_rehash` makes of the tuples. -/
def rehashed (h : Handle d) (ts : List Tuple) : Handle d :=
  (sdramParams (readHeader h.image h.offset)).foldl setAbsent
    (ts.foldl (fun h t => (nvramSet h t.1 t.2).1) { h with table := .empty })

/-- Reading the image again succeeds exactly if it can be parsed. -/
theorem nvramRehash_ok_iff (h h' : Handle d) : nvramRehash h = .ok h' ↔
    ∃ ts, parse (dataBytes h).length (dataBytes h) = .ok ts ∧ rehashed h ts = h' := by
  rw [nvramRehash]
  cases parse (dataBytes h).length (dataBytes h) with
  -- a fault of the parser is one of the whole function
  | error e =>
    constructor
    · intro hre
      cases hre
    · intro hre
      obtain ⟨ts, hts, -⟩ := hre
      cases hts
  | ok ts =>
    constructor
    · intro hre
      exact ⟨ts, rfl, Except.ok.inj hre⟩
    · intro hre
      obtain ⟨ts', hts, heq⟩ := hre
      obtain rfl := Except.ok.inj hts
      exact congrArg Except.ok heq

/-- Reading the image again keeps it. -/
theorem rehashed_frame (h : Handle d) (ts : List Tuple) :
    (rehashed h ts).image = h.image ∧ (rehashed h ts).offset = h.offset := by
  -- setting a tuple writes to the table only
  have hfold : ∀ (ts : List Tuple) (h : Handle d),
      (ts.foldl (fun h t => (nvramSet h t.1 t.2).1) h).image = h.image ∧
      (ts.foldl (fun h t => (nvramSet h t.1 t.2).1) h).offset = h.offset := by
    intro ts
    induction ts with
    | nil => exact fun _ => ⟨rfl, rfl⟩
    | cons t ts ih =>
      intro h
      obtain ⟨himage, hoffset⟩ := nvramSet_frame h t.1 t.2
      rw [List.foldl_cons, (ih _).1, (ih _).2, himage, hoffset]
      exact ⟨rfl, rfl⟩
  obtain ⟨himage, hoffset⟩ := foldl_setAbsent_frame (sdramParams (readHeader h.image h.offset))
    (ts.foldl (fun h t => (nvramSet h t.1 t.2).1) { h with table := .empty })
  rw [rehashed, himage, hoffset, (hfold _ _).1, (hfold _ _).2]
  exact ⟨rfl, rfl⟩

/-- `nvram_commit` returns if it stays inside the mapping. -/
theorem nvramCommit_ok {h : Handle d} (hf : ¬Faults h) : ∃ ts, encode ts = encode (packed h) ∧
    parse (dataBytes (committed h)).length (dataBytes (committed h)) = .ok ts ∧
    nvramCommit h = .ok (rehashed (committed h) ts) := by
  obtain ⟨rest, hdata⟩ := dataBytes_committed hf
  obtain ⟨ts, hts, henc⟩ := exists_reread_list (packed h)
  have hlen := length_le_encode ts
  have hparse : parse (dataBytes (committed h)).length (dataBytes (committed h)) = .ok ts := by
    rw [hdata, ← henc]
    apply parse_encode hts
    rw [List.length_append, List.length_cons]
    omega
  refine ⟨ts, henc, hparse, ?_⟩
  rw [nvramCommit_eq_rehash hf]
  exact (nvramRehash_ok_iff _ _).mpr ⟨ts, hparse, rfl⟩

end HandsomeMod.Native.Nvram
