import HandsomeMod.Spec.NvramCommit

/-!
# Committing and reading NVRAM

Which variables `nvram_commit` keeps, and when its image can be opened again.
-/

namespace HandsomeMod.Native.Nvram

open ForStd

variable {d : Device}

/-- A call on an open handle. -/
inductive Op where
  | set (name value : CString)
  | unset (name : CString)

def Op.name : Op → CString
  | .set name _ => name
  | .unset name => name

def Op.run (h : Handle d) : Op → Handle d
  | .set name value => (nvramSet h name value).1
  | .unset name => (nvramUnset h name).1

/-- The handle after a sequence of calls. -/
def runOps (h : Handle d) (ops : List Op) : Handle d := ops.foldl Op.run h

/-- Setting and unsetting keeps the image. -/
theorem runOps_frame (h : Handle d) (ops : List Op) :
    (runOps h ops).image = h.image ∧ (runOps h ops).offset = h.offset := by
  induction ops generalizing h with
  | nil => exact ⟨rfl, rfl⟩
  | cons op ops ih =>
    obtain ⟨himage, hoffset⟩ := ih (op.run h)
    have hop : (op.run h).image = h.image ∧ (op.run h).offset = h.offset := by
      cases op with
      | set name value => exact nvramSet_frame h name value
      | unset name => exact ⟨rfl, rfl⟩
    exact ⟨himage.trans hop.1, hoffset.trans hop.2⟩

/-! ### Names without `=` -/

/-- No variable has an `=` in its name. -/
def NamesOk (h : Handle d) : Prop := ∀ t : Tuple, nvramGet h t.1 = some t.2 → eqSign ∉ t.1.1

/-- A name without equals sign may be set. -/
private theorem NamesOk.nvramSet {h : Handle d} (hnames : NamesOk h) {name : CString}
    (hname : eqSign ∉ name.1) (value : CString) : NamesOk (nvramSet h name value).1 := by
  intro t ht
  rw [Nvram.nvramSet] at ht
  by_cases hlong : strlen value + 1 > room d h.offset
  · rw [if_pos hlong] at ht
    exact hnames t ht
  · rw [if_neg hlong] at ht
    have hget : (h.table.set name value).get t.1 = some t.2 := ht
    rw [Table.get_set] at hget
    -- the tuple was set, or it was there before
    by_cases heq : t.1 = name
    · rw [heq]
      exact hname
    · rw [if_neg heq] at hget
      exact hnames t hget

/-- Any name may be unset. -/
private theorem NamesOk.unset {h : Handle d} (hnames : NamesOk h) (name : CString) :
    NamesOk (nvramUnset h name).1 := by
  intro t ht
  have hget : (h.table.unset name).get t.1 = some t.2 := ht
  rw [Table.get_unset] at hget
  by_cases heq : t.1 = name
  · rw [if_pos heq] at hget
    cases hget
  · rw [if_neg heq] at hget
    exact hnames t hget

/-- Names without equals sign may be set where they are absent. -/
private theorem NamesOk.foldl_setAbsent (ts : List Tuple) (hts : ∀ t ∈ ts, eqSign ∉ t.1.1)
    {h : Handle d} (hnames : NamesOk h) : NamesOk (ts.foldl setAbsent h) := by
  induction ts generalizing h with
  | nil => exact hnames
  | cons t ts ih =>
    apply ih fun u hu => hts u (List.mem_cons_of_mem _ hu)
    rw [setAbsent]
    cases nvramGet h t.1 with
    | some value => exact hnames
    | none => exact hnames.nvramSet (hts t (List.mem_cons_self ..)) t.2

/-- Several names without equals sign may be set. -/
private theorem NamesOk.foldl_nvramSet (ts : List Tuple) (hts : ∀ t ∈ ts, eqSign ∉ t.1.1)
    {h : Handle d} (hnames : NamesOk h) :
    NamesOk (ts.foldl (fun h t => (Nvram.nvramSet h t.1 t.2).1) h) := by
  induction ts generalizing h with
  | nil => exact hnames
  | cons t ts ih =>
    apply ih fun u hu => hts u (List.mem_cons_of_mem _ hu)
    exact hnames.nvramSet (hts t (List.mem_cons_self ..)) t.2

/-- The names of the SDRAM parameters have no equals sign. -/
private theorem eqSign_notMem_sdramParams (header : Header) :
    ∀ t ∈ sdramParams header, eqSign ∉ t.1.1 := by
  intro t ht
  have hkeys : t.1 ∈ Assoc.keys (sdramParams header) := List.mem_map_of_mem ht
  have hall : ∀ name ∈ [sdramInitName, sdramConfigName, sdramRefreshName, sdramNcdlName],
      eqSign ∉ name.1 := by decide
  exact hall t.1 hkeys

/-- The parameters have different names. -/
private theorem nodup_keys_sdramParams (header : Header) : (Assoc.keys (sdramParams header)).Nodup
    := by
  show [sdramInitName, sdramConfigName, sdramRefreshName, sdramNcdlName].Nodup
  decide

/-- Names that were read have no equals sign. -/
theorem namesOk_of_rehash {h h' : Handle d} (hre : nvramRehash h = .ok h') : NamesOk h' := by
  obtain ⟨ts, hparse, rfl⟩ := (nvramRehash_ok_iff h h').mp hre
  apply NamesOk.foldl_setAbsent _ (eqSign_notMem_sdramParams _)
  apply NamesOk.foldl_nvramSet _ (eqSign_notMem_of_parse hparse)
  intro t ht
  cases ht

/-- Nor have they behind operations on such names. -/
theorem namesOk_runOps {h : Handle d} (hnames : NamesOk h) {ops : List Op}
    (hops : ∀ op ∈ ops, eqSign ∉ op.name.1) : NamesOk (runOps h ops) := by
  induction ops generalizing h with
  | nil => exact hnames
  | cons op ops ih =>
    apply ih _ fun o ho => hops o (List.mem_cons_of_mem _ ho)
    cases op with
    | set name value => exact hnames.nvramSet (hops _ (List.mem_cons_self ..)) value
    | unset name => exact hnames.unset name

/-! ### Opening -/

/-- The magic is at a multiple of four inside of the mapping. -/
private theorem findMagic_spec {image : Mem} {limit fuel i offset : Nat}
    (h : findMagic d image limit fuel i = .ok (some offset)) :
    4 * i ≤ offset ∧ 4 ∣ offset ∧ offset ≤ 4 * limit ∧ offset + 4 ≤ d.mapLen := by
  induction fuel generalizing i with
  | zero => cases h
  | succ fuel ih =>
    rw [findMagic] at h
    split at h
    · cases h
    · split at h
      · cases h
      · split at h
        · cases h
          exact ⟨Nat.le_refl _, Nat.dvd_mul_right 4 i, by omega, by omega⟩
        -- the search goes on at the next word
        · obtain ⟨hle, hrest⟩ := ih h
          exact ⟨by omega, hrest⟩

/-- The search ends at the same place if the bytes in front of it did not change. -/
private theorem findMagic_congr {image image' : Mem} {limit fuel i offset : Nat}
    (h : findMagic d image limit fuel i = .ok (some offset))
    (hbefore : ∀ p < offset, image' p = image p) (hmagic : word image' offset = nvramMagic) :
    findMagic d image' limit fuel i = .ok (some offset) := by
  -- every word the search passed lies before `offset`, where the images agree
  induction fuel generalizing i with
  | zero => cases h
  | succ fuel ih =>
    rw [findMagic] at h ⊢
    by_cases hlimit : i > limit
    · rw [if_pos hlimit] at h
      cases h
    · rw [if_neg hlimit] at h ⊢
      by_cases hend : 4 * i + 4 > d.mapLen
      · rw [if_pos hend] at h
        cases h
      · rw [if_neg hend] at h ⊢
        by_cases hword : word image (4 * i) = nvramMagic
        · rw [if_pos hword] at h
          cases h
          rw [if_pos hmagic]
        · rw [if_neg hword] at h
          obtain ⟨hle, -⟩ := findMagic_spec h
          have hsame : word image' (4 * i) = word image (4 * i) := by
            rw [word, word]
            congr 1
            apply loadBE_congr
            intro j hj
            exact hbefore _ (by omega)
          rw [hsame, if_neg hword]
          exact ih h

/-- What `nvram_open` has done when it returns a handle. -/
theorem nvramOpen_spec {image : Mem} {rdonly : Bool} {h : Handle d}
    (hopen : nvramOpen d image rdonly = .ok (some h)) :
    findMagic d image (magicLimit d) (d.mapLen / 4 + 1) 0 = .ok (some h.offset) ∧
      h.image = image ∧
      nvramRehash { image := image, offset := h.offset, table := .empty } = .ok h := by
  rw [nvramOpen] at hopen
  cases hfind : findMagic d image (magicLimit d) (d.mapLen / 4 + 1) 0 with
  | error e =>
    rw [hfind] at hopen
    cases hopen
  | ok found =>
    rw [hfind] at hopen
    cases found with
    | none => cases hopen
    | some offset =>
      simp only [bind, Except.bind] at hopen
      split at hopen
      · cases hopen
      · split at hopen
        · cases hre : nvramRehash { image := image, offset := offset, table := .empty } with
          | error e =>
            rw [hre] at hopen
            cases hopen
          | ok h1 =>
            rw [hre] at hopen
            obtain rfl := Option.some.inj (Except.ok.inj hopen)
            -- the rehash changes neither the image nor the offset
            obtain ⟨ts, -, hts⟩ := (nvramRehash_ok_iff _ _).mp hre
            obtain ⟨himage, hoffset⟩ := rehashed_frame
              ({ image := image, offset := offset, table := .empty } : Handle d) ts
            rw [hts] at himage hoffset
            rw [hoffset, himage]
            exact ⟨rfl, rfl, hre⟩
        · cases hopen

/-! ### The round trip -/

/-- With names that can be read, the packed tuples are read back. -/
theorem nvramCommit_packed {h : Handle d} (hf : ¬Faults h) (hnames : NamesOk h) :
    parse (dataBytes (committed h)).length (dataBytes (committed h)) = .ok (packed h) ∧
      nvramCommit h = .ok (rehashed (committed h) (packed h)) := by
  obtain ⟨ts, -, hparse, hcommit⟩ := nvramCommit_ok hf
  obtain ⟨rest, hdata⟩ := dataBytes_committed hf
  -- what was packed is parsed as it was
  have hread : parse (dataBytes (committed h)).length (dataBytes (committed h)) =
      .ok (packed h) := by
    have hlen := length_le_encode (packed h)
    rw [hdata]
    apply parse_encode
    · intro t ht
      exact hnames t ((h.table.mem_tuples t).mp ((sublist_packed h).subset ht))
    · rw [List.length_append, List.length_cons]
      omega
  rw [hparse] at hread
  obtain rfl := Except.ok.inj hread
  exact ⟨hparse, hcommit⟩

/-- The SDRAM parameters are printed with at most ten characters. -/
private theorem strlen_sdramParams_le (header : Header) :
    ∀ t ∈ sdramParams header, strlen t.2 ≤ 10 := by
  have hlen : ∀ n v, strlen (sprintfHex n v) = n + 2 := by simp [strlen, sprintfHex]
  simp [sdramParams, hlen]

/-- What can be got behind reading the image: its strings, and the SDRAM parameters. -/
private theorem nvramGet_rehashed (h : Handle d) {ts : List Tuple} (hts : (Assoc.keys ts).Nodup)
    (hfit : ∀ t ∈ ts, strlen t.2 + 1 ≤ room d h.offset) (hroom : 11 ≤ room d h.offset)
    (name : CString) :
    nvramGet (rehashed h ts) name =
      (ts.lookup name).or ((sdramParams (readHeader h.image h.offset)).lookup name) := by
  have hfold := foldl_nvramSet ts { h with table := .empty } hfit
  rw [rehashed, nvramGet_foldl_setAbsent _ _ (nodup_keys_sdramParams _), hfold]
  · show ((ts.foldl (fun (tab : Table d) t => tab.set t.1 t.2) Table.empty).get name).or _ = _
    rw [Table.get_foldl_set ts _ hts, Table.get_empty, Option.or_none]
  · intro t ht
    rw [hfold]
    exact Nat.le_trans (Nat.succ_le_succ (strlen_sdramParams_le _ t ht)) hroom

/-- A value is shorter than the bytes of its list. -/
private theorem strlen_le_of_mem {l : List Tuple} {t : Tuple} (ht : t ∈ l) :
    strlen t.2 + 2 ≤ Pack.total tupleSize l := by
  have hle := Pack.le_total tupleSize ht
  rw [tupleSize] at hle
  omega

/-- A commit with room keeps all values. -/
theorem nvramGet_nvramCommit {h : Handle d} (hf : ¬Faults h) (hnames : NamesOk h)
    (hsize : h.table.size + sizeofHeader + 2 ≤ d.partSize - h.offset) :
    ∃ h', nvramCommit h = .ok h' ∧ ∀ name, nvramGet h' name =
      (nvramGet h name).or ((sdramParams (readHeader h'.image h'.offset)).lookup name) := by
  have hcap : h.table.size ≤ capacity d h.offset := by
    rw [capacity]
    omega
  have hle : h.offset ≤ d.partSize := by omega
  have hroom : room d (committed h).offset = d.partSize - h.offset := room_eq hle
  obtain ⟨-, hcommit⟩ := nvramCommit_packed hf hnames
  rw [packed_eq_tuples hcap] at hcommit
  refine ⟨_, hcommit, fun name => ?_⟩
  obtain ⟨himage, hoffset⟩ := rehashed_frame (committed h) h.table.tuples
  -- all tuples fit, so the commit writes and reads back the whole table
  rw [nvramGet_rehashed _ h.table.nodup_keys_tuples, h.table.lookup_tuples, himage, hoffset]
  · rfl
  · intro t ht
    have hle : strlen t.2 + 2 ≤ h.table.size := strlen_le_of_mem ht
    rw [hroom]
    omega
  · rw [hroom, sizeofHeader] at *
    omega

/-- With room a commit faults exactly if the padding does. -/
theorem faults_iff_of_size {h : Handle d}
    (hsize : h.table.size + sizeofHeader + 2 ≤ d.partSize - h.offset) :
    Faults h ↔ PadOverrun h h.table.size := by
  have hcap : h.table.size ≤ capacity d h.offset := by
    rw [capacity]
    omega
  have hmap := partSize_le_mapLen d
  rw [Faults, used_eq_size hcap]
  constructor
  · intro hf
    obtain hf | hf | hf := hf
    · omega
    · omega
    · exact hf
  · exact fun hf => .inr (.inr hf)

/-- After calls on an open handle whose variables fit, `nvram_commit` keeps every variable, and
    re-creates the SDRAM parameters that are not there, exactly if its padding stays inside the
    mapping. -/
theorem nvramCommit_get_iff (d : Device) (image : Mem) (rdonly : Bool) (h0 : Handle d)
    (hopen : nvramOpen d image rdonly = .ok (some h0)) (ops : List Op)
    (hops : ∀ op ∈ ops, eqSign ∉ op.name.1)
    (hsize : (runOps h0 ops).table.size + sizeofHeader + 2 ≤
      d.partSize - (runOps h0 ops).offset) :
    (∃ h', nvramCommit (runOps h0 ops) = .ok h' ∧ ∀ name, nvramGet h' name =
      (nvramGet (runOps h0 ops) name).or
        ((sdramParams (readHeader h'.image h'.offset)).lookup name)) ↔
    ¬PadOverrun (runOps h0 ops) (runOps h0 ops).table.size := by
  obtain ⟨-, -, hre⟩ := nvramOpen_spec hopen
  have hnames := namesOk_runOps (namesOk_of_rehash hre) hops
  rw [← faults_iff_of_size hsize]
  constructor
  · intro hget hf
    obtain ⟨h', hcommit, -⟩ := hget
    rw [nvramCommit_of_faults hf] at hcommit
    cases hcommit
  · intro hf
    exact nvramGet_nvramCommit hf hnames hsize

/-! ### Lost variables -/

/-- The image has the tuples that are parsed. -/
theorem mem_imageHas {h h' : Handle d} {ts : List Tuple}
    (hparse : parse (dataBytes h).length (dataBytes h) = .ok ts) (himage : h'.image = h.image)
    (hoffset : h'.offset = h.offset) (t : Tuple) : ImageHas h' t ↔ t ∈ ts := by
  have hdata : dataBytes h' = dataBytes h := by
    rw [dataBytes, himage, hoffset, dataBytes]
  rw [ImageHas, hdata, hparse]
  constructor
  · intro h
    obtain ⟨ts', heq, ht⟩ := h
    rwa [Except.ok.inj heq]
  · exact fun ht => ⟨ts, rfl, ht⟩

/-- If the variables are too many for the data area, `nvram_commit` returns and one is lost. -/
theorem exists_lost {h : Handle d} (hf : ¬Faults h) (hsize : capacity d h.offset < h.table.size) :
    ∃ h', nvramCommit h = .ok h' ∧ ∃ t : Tuple, nvramGet h t.1 = some t.2 ∧ ¬ImageHas h' t := by
  obtain ⟨ts, henc, hparse, hcommit⟩ := nvramCommit_ok hf
  obtain ⟨himage, hoffset⟩ := rehashed_frame (committed h) ts
  refine ⟨_, hcommit, ?_⟩
  by_contra hall
  have hkept : ∀ t ∈ h.table.tuples, t ∈ ts := by
    intro t ht
    by_contra hnot
    exact hall ⟨t, (h.table.mem_tuples t).mp ht, fun hhas =>
      hnot ((mem_imageHas hparse himage hoffset t).mp hhas)⟩
  -- the names that are read have no `=`, so the image holds the packed tuples
  have hnames : NamesOk h := fun t ht =>
    eqSign_notMem_of_parse hparse t (hkept t ((h.table.mem_tuples t).mpr ht))
  obtain ⟨hpacked, -⟩ := nvramCommit_packed hf hnames
  rw [hparse] at hpacked
  obtain rfl := Except.ok.inj hpacked
  obtain ⟨t, ht, hlost⟩ := exists_notMem_packed hsize
  exact hlost (hkept t ht)

/-- `nvram_commit` loses no variable exactly if it does not return, or no name has an `=` and the
    variables fit. -/
theorem nvramCommit_imageHas_iff (h : Handle d) :
    (∀ h', nvramCommit h = .ok h' → ∀ t : Tuple, nvramGet h t.1 = some t.2 → ImageHas h' t) ↔
      Faults h ∨ (NamesOk h ∧ h.table.size ≤ capacity d h.offset) := by
  -- a commit that faults returns no handle
  by_cases hf : Faults h
  · rw [nvramCommit_of_faults hf]
    constructor
    · exact fun _ => .inl hf
    · intro _ h' hcommit
      cases hcommit
  · constructor
    · intro hall
      obtain ⟨ts, -, hparse, hcommit⟩ := nvramCommit_ok hf
      obtain ⟨himage, hoffset⟩ := rehashed_frame (committed h) ts
      refine .inr ⟨fun t ht => ?_, ?_⟩
      · have hmem := (mem_imageHas hparse himage hoffset t).mp (hall _ hcommit t ht)
        exact eqSign_notMem_of_parse hparse t hmem
      -- a table that does not fit loses a tuple at its end
      · by_contra hsize
        obtain ⟨h', hcommit', t, ht, hlost⟩ := exists_lost hf (Nat.lt_of_not_le hsize)
        exact hlost (hall h' hcommit' t ht)
    · intro hcond h' hcommit t ht
      obtain ⟨hnames, hsize⟩ := hcond.resolve_left hf
      obtain ⟨hparse, hcommit'⟩ := nvramCommit_packed hf hnames
      obtain ⟨himage, hoffset⟩ := rehashed_frame (committed h) (packed h)
      rw [hcommit'] at hcommit
      obtain rfl := Except.ok.inj hcommit
      rw [mem_imageHas hparse himage hoffset, packed_eq_tuples hsize]
      exact (h.table.mem_tuples t).mpr ht

/-! ### Opening a committed image -/

/-- The low byte of a word that is put together. -/
private theorem byte_zero_or (a b : UInt32) (crc : UInt8) :
    (a <<< 8 ||| b <<< 16 ||| crc.toUInt32) &&& 0xff = crc.toUInt32 := by
  apply UInt32.toBitVec_inj.mp
  apply BitVec.eq_of_getLsbD_eq
  intro i hi
  by_cases hlow : i < 8
  · have hbit : (0xff#32).getLsbD i = true := by
      interval_cases i <;> rfl
    simp [hbit, hlow, show i < 16 by omega]
  · have hbit : (0xff#32).getLsbD i = false := by
      interval_cases i <;> simp_all
    have hhigh : crc.toBitVec.getLsbD i = false := BitVec.getLsbD_of_ge _ _ (by omega)
    simp [hbit, hhigh]

/-- The new header has its checksum byte free. -/
private theorem crcVerInit_newHeader (h : Handle d) :
    ∃ a b : UInt32, (newHeader h).crcVerInit = a <<< 8 ||| b <<< 16 := by
  rw [newHeader]
  split
  · exact ⟨_, _, rfl⟩
  · exact ⟨_, _, rfl⟩

/-- The length that `nvram_commit` sets. -/
def newLen (h : Handle d) : Nat := roundup4 (used h + sizeofHeader + 2)

/-- The header that is read behind a commit. -/
theorem readHeader_committed (h : Handle d) :
    ∃ image, (∀ n, bytesAt (committed h).image (h.offset + sizeofHeader) n =
        bytesAt image (h.offset + sizeofHeader) n) ∧
      bytesAt (committed h).image h.offset sizeofHeader =
        (finishHeader image h.offset (newHeader h) (newLen h)).bytes ∧
      readHeader (committed h).image h.offset =
        finishHeader image h.offset (newHeader h) (newLen h) := by
  have hlen : h.offset + sizeofHeader + used h + 2 - h.offset = used h + sizeofHeader + 2 := by
    omega
  refine ⟨writeData h (encode (packed h)) (padLen (d.base + (h.offset + sizeofHeader + used h + 1))),
    fun n => ?_, ?_, ?_⟩
  · simp only [committed]
    rw [bytesAt_writeBytes_after]
    rw [length_headerBytes]
  · simp only [committed]
    rw [hlen, bytesAt_headerBytes, newLen]
  · simp only [committed]
    rw [readHeader_writeBytes, hlen, newLen]

/-- The stored CRC is the one that `do_info` calculates. -/
theorem infoCrc_committed {h : Handle d} (hlen : newLen h < 2 ^ 32) :
    (readHeader (committed h).image h.offset).crcVerInit &&& 0xff =
      (infoCrc (committed h)).toUInt32 := by
  obtain ⟨image, hbytes, hhead, hheader⟩ := readHeader_committed h
  have hmin : sizeofHeader ≤ newLen h := by
    rw [newLen, roundup4]
    omega
  -- the checksum runs over the rest of the header and the packed tuples
  have hsub : ((readHeader (committed h).image h.offset).len - 9).toNat =
      sizeofHeader - crcStart + (newLen h - sizeofHeader) := by
    have hle : (9 : UInt32) ≤ UInt32.ofNat (newLen h) := by
      rw [UInt32.le_iff_toNat_le, UInt32.toNat_ofNat_of_lt' hlen]
      exact Nat.le_trans (by decide) hmin
    rw [hheader]
    simp only [finishHeader]
    rw [UInt32.toNat_sub_of_le _ _ hle, UInt32.toNat_ofNat_of_lt' hlen]
    rw [sizeofHeader] at *
    simp only [crcStart]
    exact (by omega : newLen h - 9 = 20 - 9 + (newLen h - 20))
  have htail : bytesAt (committed h).image (h.offset + crcStart) (sizeofHeader - crcStart) =
      (newHeader h).bytes.drop crcStart := by
    rw [← drop_bytes_finishHeader image h.offset (newHeader h) (newLen h), ← hhead, ← bytesAt_drop]
    rfl
  -- the header stores the checksum of these bytes in its low byte
  obtain ⟨a, b, hcrc⟩ := crcVerInit_newHeader h
  have hoffset : (committed h).offset = h.offset := rfl
  rw [infoCrc, hoffset, hsub, bytesAt_add, hndcrc8_append, htail,
    show h.offset + crcStart + (sizeofHeader - crcStart) = h.offset + sizeofHeader from rfl, hbytes,
    hheader]
  simp only [finishHeader]
  rw [hcrc, byte_zero_or]

/-- On a partition with `NVRAM_MIN_SPACE` the handle leaves that much behind its offset. -/
theorem offset_of_nvramOpen {image : Mem} {rdonly : Bool} {h : Handle d}
    (hopen : nvramOpen d image rdonly = .ok (some h)) (hmin : nvramMinSpace ≤ d.partSize) :
    4 ∣ h.offset ∧ h.offset + nvramMinSpace ≤ d.partSize := by
  obtain ⟨hfind, -, -⟩ := nvramOpen_spec hopen
  obtain ⟨-, hdvd, hle, -⟩ := findMagic_spec hfind
  have hlimit : magicLimit d = (d.partSize - nvramMinSpace) / 4 := by
    rw [magicLimit, if_pos hmin]
  exact ⟨hdvd, by omega⟩

/-- A committed image is opened again exactly if its length is less than the space for it. -/
theorem reopen_iff {h : Handle d} {image : Mem} (hf : ¬Faults h)
    (hfind : findMagic d image (magicLimit d) (d.mapLen / 4 + 1) 0 = .ok (some h.offset))
    (himage : h.image = image) (hlen : newLen h < 2 ^ 32) :
    (∃ h', nvramOpen d (committed h).image false = .ok (some h')) ↔ newLen h < room d h.offset := by
  obtain ⟨written, -, -, hheader⟩ := readHeader_committed h
  obtain ⟨ts, -, hparse, -⟩ := nvramCommit_ok hf
  have hmagic : word (committed h).image h.offset = nvramMagic := by
    have hfield : (readHeader (committed h).image h.offset).magic = nvramMagic := by
      rw [hheader]
      simp only [finishHeader, newHeader]
      split <;> rfl
    exact hfield
  -- the magic is written again and nothing before it changes, so it is found where it was
  have hfind' : findMagic d (committed h).image (magicLimit d) (d.mapLen / 4 + 1) 0 =
      .ok (some h.offset) := by
    apply findMagic_congr hfind _ hmagic
    intro p hp
    rw [committed_before h hp, himage]
  have hlen' : (readHeader (committed h).image h.offset).len.toNat = newLen h := by
    rw [hheader]
    exact UInt32.toNat_ofNat_of_lt' hlen
  have hroom : ¬h.offset + 8 > d.mapLen := by
    have hmap := partSize_le_mapLen d
    have hpart : ¬d.partSize < h.offset + sizeofHeader := fun hlt => hf (.inl hlt)
    rw [sizeofHeader] at hpart
    omega
  have hre : nvramRehash { image := (committed h).image, offset := h.offset, table := .empty } =
      .ok (rehashed (committed h) ts) :=
    (nvramRehash_ok_iff _ _).mpr ⟨ts, hparse, rfl⟩
  rw [nvramOpen, hfind']
  simp only [bind, Except.bind]
  rw [hlen', if_neg fun hand => hroom hand.2]
  -- the open demands that the length be less than the room, strictly
  by_cases hlt : newLen h < room d h.offset
  · rw [if_pos (.inr hlt), hre]
    exact ⟨fun _ => hlt, fun _ => ⟨_, rfl⟩⟩
  · rw [if_neg]
    · constructor
      · intro hopen
        obtain ⟨h', hopen⟩ := hopen
        cases hopen
      · exact fun h => absurd h hlt
    · intro hor
      obtain hor | hor := hor
      · cases hor
      · exact hlt hor

/-- The checksum depends on the image only. -/
private theorem infoCrc_congr {h h' : Handle d} (himage : h'.image = h.image)
    (hoffset : h'.offset = h.offset) : infoCrc h' = infoCrc h := by
  rw [infoCrc, himage, hoffset, infoCrc]

/-- After calls on a handle that was opened for writing, the committed image has its length inside
    the partition and the right CRC and can be opened again, exactly if the packed variables leave
    4 of the bytes they can have. -/
theorem nvramCommit_reopen_iff (d : Device) (hpart : 4 ∣ d.partSize)
    (hmin : nvramMinSpace ≤ d.partSize) (image : Mem) (h0 : Handle d)
    (hopen : nvramOpen d image false = .ok (some h0)) (ops : List Op) :
    (∃ h', nvramCommit (runOps h0 ops) = .ok h' ∧
      (readHeader h'.image h'.offset).len.toNat ≤ d.partSize - h'.offset ∧
      (readHeader h'.image h'.offset).crcVerInit &&& 0xff = (infoCrc h').toUInt32 ∧
      ∃ h'', nvramOpen d h'.image false = .ok (some h'')) ↔
    used (runOps h0 ops) + sizeofHeader + 6 ≤ d.partSize - (runOps h0 ops).offset := by
  obtain ⟨hfind, himage0, -⟩ := nvramOpen_spec hopen
  obtain ⟨hdvd, hspace⟩ := offset_of_nvramOpen hopen hmin
  obtain ⟨himage, hoffset⟩ := runOps_frame h0 ops
  generalize runOps h0 ops = h at himage hoffset
  rw [← hoffset] at hfind hdvd hspace
  rw [himage0] at himage
  have hroom : room d h.offset = d.partSize - h.offset := room_eq (by omega)
  have hmap := partSize_le_mapLen d
  have hlt := d.partSize_lt
  -- the packing stops in time for the header and the two zero bytes
  have hused : used h ≤ d.partSize - h.offset - sizeofHeader - 2 := by
    have hle := used_le h
    rw [capacity] at hle
    omega
  have hsmall : 32768 ≤ d.partSize - h.offset := by
    rw [nvramMinSpace] at hspace
    omega
  -- the packed size is at most the room in any case, equality is what cannot be reopened
  have hlen : newLen h ≤ d.partSize - h.offset := by
    rw [newLen, roundup4, sizeofHeader] at *
    omega
  have hlen32 : newLen h < 2 ^ 32 := by omega
  constructor
  · intro hall
    obtain ⟨h', hcommit, -, -, hreopen⟩ := hall
    have hf : ¬Faults h := by
      intro hf
      rw [nvramCommit_of_faults hf] at hcommit
      cases hcommit
    obtain ⟨ts, -, -, hcommit'⟩ := nvramCommit_ok hf
    rw [hcommit'] at hcommit
    obtain rfl := Except.ok.inj hcommit
    rw [(rehashed_frame (committed h) ts).1] at hreopen
    have hless := (reopen_iff hf hfind himage hlen32).mp hreopen
    rw [hroom, newLen, roundup4] at hless
    omega
  · intro hless
    have hf : ¬Faults h := by
      intro hf
      obtain hf | hf | hf := hf
      · omega
      · omega
      · obtain ⟨-, -, hf⟩ := hf
        omega
    obtain ⟨ts, -, -, hcommit⟩ := nvramCommit_ok hf
    obtain ⟨himage', hoffset'⟩ := rehashed_frame (committed h) ts
    have hoffset'' : (rehashed (committed h) ts).offset = h.offset := hoffset'
    obtain ⟨written, -, -, hheader⟩ := readHeader_committed h
    have hfield : (readHeader (committed h).image h.offset).len.toNat = newLen h := by
      rw [hheader]
      exact UInt32.toNat_ofNat_of_lt' hlen32
    refine ⟨_, hcommit, ?_⟩
    rw [infoCrc_congr himage' hoffset', himage', hoffset'', hfield]
    refine ⟨hlen, infoCrc_committed hlen32, ?_⟩
    rw [reopen_iff hf hfind himage hlen32, hroom, newLen, roundup4, sizeofHeader] at *
    omega

/-! ### A blank partition -/

private theorem smallDevice_four_dvd : 4 ∣ 4096 := by decide

private theorem smallDevice_pos : 0 < 4096 := by decide

private theorem smallDevice_ptrSize : 0 < 4 := by decide

/-- A partition of the least size. -/
def smallDevice (base : Nat) (hbase : 4096 ∣ base) : Device where
  partSize := nvramMinSpace
  base := base
  page := 4096
  ptrSize := 4
  charSigned := false
  longBits := 32
  four_dvd_page := smallDevice_four_dvd
  page_pos := smallDevice_pos
  page_dvd_base := hbase
  ptrSize_pos := smallDevice_ptrSize
  partSize_lt := by decide

/-- The length that is mapped of it. -/
theorem mapLen_smallDevice (base : Nat) (hbase : 4096 ∣ base) :
    (smallDevice base hbase).mapLen = 32768 := by
  show (nvramMinSpace + 4096 - 1) / 4096 * 4096 = 32768
  decide

/-- Mapped below 2^31, and above. -/
abbrev lowDevice : Device := smallDevice 0x2aaa8000 (by decide)

abbrev highDevice : Device := smallDevice 0xb6f00000 (by decide)

/-- Only the magic. -/
def blankImage : Mem := writeBytes (fun _ => 0) 0 (le32 nvramMagic)

def varName : CString := ⟨[118], by decide⟩

/-- A value of `n` characters. -/
def longValue (n : Nat) : CString :=
  ⟨List.replicate n 65, fun h => absurd (List.eq_of_mem_replicate h) (by decide)⟩

/-- The size of the table behind setting what is absent. -/
private theorem size_foldl_setAbsent (ts : List Tuple) {h : Handle d} (hts : (Assoc.keys ts).Nodup)
    (hfit : ∀ t ∈ ts, strlen t.2 + 1 ≤ room d h.offset) (hnew : ∀ t ∈ ts, nvramGet h t.1 = none) :
    (ts.foldl setAbsent h).table.size = Pack.total tupleSize ts + h.table.size := by
  induction ts generalizing h with
  | nil => exact (Nat.zero_add _).symm
  | cons t ts ih =>
    obtain ⟨ht, hts⟩ := List.nodup_cons.mp hts
    have hnone := hnew t (List.mem_cons_self ..)
    -- an absent name that fits is added to the table
    have hset : setAbsent h t = { h with table := h.table.set t.1 t.2 } := by
      simp only [setAbsent, hnone]
      rw [nvramSet, if_neg (Nat.not_lt.mpr (hfit t (List.mem_cons_self ..)))]
    rw [List.foldl_cons, hset, ih hts]
    · have hpair : tupleSize (t.1, t.2) = tupleSize t := rfl
      rw [Pack.total_cons, Table.size_set _ _ hnone, hpair]
      omega
    · intro u hu
      exact hfit u (List.mem_cons_of_mem _ hu)
    -- the names are distinct, so the others are still absent
    · intro u hu
      show (h.table.set t.1 t.2).get u.1 = none
      have hne : u.1 ≠ t.1 := fun heq => ht (heq ▸ List.mem_map_of_mem hu)
      rw [Table.get_set, if_neg hne]
      exact hnew u (List.mem_cons_of_mem _ hu)

/-- The strings end at a NUL. -/
private theorem parse_zero (fuel : Nat) (l : List UInt8) : parse (fuel + 1) (0 :: l) = .ok [] :=
  rfl

/-- What is found, covered and short enough is opened. -/
private theorem nvramOpen_of_parse {image : Mem} {offset : Nat} {ts : List Tuple}
    (hfind : findMagic d image (magicLimit d) (d.mapLen / 4 + 1) 0 = .ok (some offset))
    (hcover : ¬offset + 8 > d.mapLen)
    (hlt : (readHeader image offset).len.toNat < room d offset)
    (hparse : parse (dataBytes (d := d) ⟨image, offset, .empty⟩).length
      (dataBytes (d := d) ⟨image, offset, .empty⟩) = .ok ts) :
    nvramOpen d image false = .ok (some (rehashed ⟨image, offset, .empty⟩ ts)) := by
  rw [nvramOpen, hfind]
  simp only [bind, Except.bind]
  rw [if_neg fun hand => hcover hand.2, if_pos (Or.inr hlt),
    (nvramRehash_ok_iff _ _).mpr ⟨ts, hparse, rfl⟩]
  rfl

/-- The blank partition is opened with the four SDRAM parameters and nothing else. -/
private theorem nvramOpen_blankImage (base : Nat) (hbase : 4096 ∣ base) :
    ∃ h, nvramOpen (smallDevice base hbase) blankImage false = .ok (some h) ∧ h.offset = 0 ∧
      h.table.size = 81 ∧ nvramGet h varName = none := by
  have hmap : (smallDevice base hbase).mapLen = 32768 := mapLen_smallDevice base hbase
  have hroom : room (smallDevice base hbase) 0 = 32768 := room_eq (Nat.zero_le _)
  have hmagic : word blankImage (4 * 0) = nvramMagic := by decide
  have hlen : (readHeader blankImage 0).len.toNat = 0 := by decide
  have hfind : findMagic (smallDevice base hbase) blankImage (magicLimit (smallDevice base hbase))
      ((smallDevice base hbase).mapLen / 4 + 1) 0 = .ok (some 0) := by
    rw [findMagic, if_neg (Nat.not_lt_zero _)]
    rw [hmap, if_neg (by decide), if_pos hmagic]
  let h0 : Handle (smallDevice base hbase) := { image := blankImage, offset := 0, table := .empty }
  -- the data starts with the empty string, so there is no tuple
  have hparse : parse (dataBytes h0).length (dataBytes h0) = .ok [] := by
    have hsplit : (smallDevice base hbase).mapLen - (0 + sizeofHeader) = 1 + 32747 := by
      rw [hmap]
      decide
    have hone : bytesAt blankImage (0 + sizeofHeader) 1 = [0] := by decide
    have hcons : dataBytes h0 = 0 :: bytesAt blankImage (0 + sizeofHeader + 1) 32747 := by
      show bytesAt blankImage (0 + sizeofHeader) _ = _
      rw [hsplit, bytesAt_add, hone, List.singleton_append]
    rw [hcons, List.length_cons]
    exact parse_zero _ _
  have hfit : ∀ t ∈ sdramParams (readHeader blankImage 0),
      strlen t.2 + 1 ≤ room (smallDevice base hbase) 0 := by
    intro t ht
    have hle := strlen_sdramParams_le _ t ht
    omega
  -- the table holds the four parameters of the header and nothing else
  refine ⟨rehashed h0 [], ?_, (rehashed_frame h0 []).2, ?_, ?_⟩
  -- the header is inside the mapping, and its length inside the partition
  · have hcover : ¬0 + 8 > (smallDevice base hbase).mapLen := by
      rw [hmap]
      decide
    have hlt : (readHeader blankImage 0).len.toNat < room (smallDevice base hbase) 0 := by
      rw [hlen, hroom]
      decide
    exact nvramOpen_of_parse hfind hcover hlt hparse
  · show ((sdramParams (readHeader blankImage 0)).foldl setAbsent h0).table.size = 81
    rw [size_foldl_setAbsent _ (nodup_keys_sdramParams _) hfit fun _ _ => rfl]
    show _ + (Table.empty : Table (smallDevice base hbase)).size = 81
    rw [Table.size_empty]
    rfl
  · show nvramGet ((sdramParams (readHeader blankImage 0)).foldl setAbsent h0) varName = none
    rw [nvramGet_foldl_setAbsent _ _ (nodup_keys_sdramParams _) hfit]
    have hnone : (sdramParams (readHeader blankImage 0)).lookup varName = none := by
      apply (Assoc.lookup_eq_none _ _).mpr
      show varName ∉ [sdramInitName, sdramConfigName, sdramRefreshName, sdramNcdlName]
      decide
    rw [hnone]
    rfl

/-- A variable with a long value on the blank partition. -/
theorem runOps_blankImage (base : Nat) (hbase : 4096 ∣ base) {n : Nat} (hn : n < 32768) :
    ∃ h0 h : Handle (smallDevice base hbase),
      nvramOpen (smallDevice base hbase) blankImage false = .ok (some h0) ∧
      runOps h0 [.set varName (longValue n)] = h ∧ (nvramSet h0 varName (longValue n)).2 = 0 ∧
      h.offset = 0 ∧ h.table.size = n + 84 := by
  obtain ⟨h0, hopen, hoffset, hsize, hnone⟩ := nvramOpen_blankImage base hbase
  have hlen : strlen (longValue n) = n := List.length_replicate
  have hroom : room (smallDevice base hbase) h0.offset = 32768 := by
    rw [hoffset]
    exact room_eq (Nat.zero_le _)
  have hset : nvramSet h0 varName (longValue n) =
      ({ h0 with table := h0.table.set varName (longValue n) }, 0) := by
    rw [nvramSet, hlen, hroom, if_neg (by omega)]
  refine ⟨h0, _, hopen, rfl, ?_, ?_, ?_⟩
  · rw [hset]
  · show (nvramSet h0 varName (longValue n)).1.offset = 0
    rw [hset]
    exact hoffset
  -- name, `=`, value and the zero behind it
  · have htuple : tupleSize (varName, longValue n) = n + 3 := by
      rw [tupleSize, hlen]
      show 1 + 1 + n + 1 = n + 3
      omega
    show (nvramSet h0 varName (longValue n)).1.table.size = n + 84
    rw [hset]
    show (h0.table.set varName (longValue n)).size = n + 84
    rw [Table.size_set _ _ hnone, htuple, hsize]

/-- Below 2^31 the padding stays inside the mapping. -/
private theorem not_faults_smallDevice {h : Handle lowDevice}
    (hoffset : h.offset = 0) : ¬Faults h := by
  have hmap := mapLen_smallDevice 0x2aaa8000 (by decide)
  have hused := used_le h
  rw [capacity, hoffset] at hused
  have hle : used h ≤ 32746 := hused
  intro hf
  rw [Faults, PadOverrun, hoffset, hmap] at hf
  obtain hf | hf | hf := hf
  · exact absurd hf (by decide)
  · rw [sizeofHeader] at hf
    omega
  -- the data lie below the bit 31 of the addresses
  · obtain ⟨haddr, -, -⟩ := hf
    have hbase : lowDevice.base = 0x2aaa8000 := rfl
    rw [hbase, sizeofHeader] at haddr
    omega

/-- A value that fills the partition, committed at a low address. -/
theorem nvramCommit_get_iff_blankImage :
    ∃ h0 : Handle lowDevice,
      nvramOpen lowDevice blankImage false = .ok (some h0) ∧
      ∃ h', nvramCommit (runOps h0 [.set varName (longValue 32662)]) = .ok h' ∧
        ∀ name, nvramGet h' name = (nvramGet (runOps h0 [.set varName (longValue 32662)]) name).or
          ((sdramParams (readHeader h'.image h'.offset)).lookup name) := by
  obtain ⟨h0, h, hopen, rfl, -, hoffset, hsize⟩ :=
    runOps_blankImage 0x2aaa8000 (by decide) (show 32662 < 32768 by decide)
  have hfit : (runOps h0 [.set varName (longValue 32662)]).table.size + sizeofHeader + 2 ≤
      nvramMinSpace - (runOps h0 [.set varName (longValue 32662)]).offset := by
    rw [hsize, hoffset]
    decide
  refine ⟨h0, hopen, (nvramCommit_get_iff _ blankImage false h0 hopen _ ?_ hfit).mpr ?_⟩
  -- the only operation is a set of a new name
  · intro op hop
    obtain rfl := List.mem_singleton.mp hop
    decide
  · intro hpad
    exact not_faults_smallDevice hoffset ((faults_iff_of_size hfit).mpr hpad)

/-- With the mapping at a high address the full data area makes the padding end behind it. -/
theorem highMapping_not_committed :
    ∃ h0 : Handle highDevice,
      nvramOpen highDevice blankImage false = .ok (some h0) ∧
      (runOps h0 [.set varName (longValue 32662)]).table.size + sizeofHeader + 2 ≤
        nvramMinSpace - (runOps h0 [.set varName (longValue 32662)]).offset ∧
      ¬∃ h', nvramCommit (runOps h0 [.set varName (longValue 32662)]) = .ok h' ∧
        ∀ name, nvramGet h' name = (nvramGet (runOps h0 [.set varName (longValue 32662)]) name).or
          ((sdramParams (readHeader h'.image h'.offset)).lookup name) := by
  obtain ⟨h0, h, hopen, rfl, -, hoffset, hsize⟩ :=
    runOps_blankImage 0xb6f00000 (by decide) (show 32662 < 32768 by decide)
  have hfit : (runOps h0 [.set varName (longValue 32662)]).table.size + sizeofHeader + 2 ≤
      nvramMinSpace - (runOps h0 [.set varName (longValue 32662)]).offset := by
    rw [hsize, hoffset]
    decide
  refine ⟨h0, hopen, hfit, fun hcommit => ?_⟩
  -- the size asks for padding, and the address has bit 31
  have hf : Faults (runOps h0 [.set varName (longValue 32662)]) := by
    rw [faults_iff_of_size hfit, PadOverrun, hsize, hoffset, mapLen_smallDevice]
    decide
  obtain ⟨h', hcommit, -⟩ := hcommit
  rw [nvramCommit_of_faults hf] at hcommit
  cases hcommit

/-- A long value, committed and opened again. -/
theorem nvramCommit_reopen_iff_blankImage :
    ∃ h0 : Handle lowDevice,
      nvramOpen lowDevice blankImage false = .ok (some h0) ∧
      ∃ h', nvramCommit (runOps h0 [.set varName (longValue 32000)]) = .ok h' ∧
        (readHeader h'.image h'.offset).len.toNat ≤ nvramMinSpace - h'.offset ∧
        (readHeader h'.image h'.offset).crcVerInit &&& 0xff = (infoCrc h').toUInt32 ∧
        ∃ h'', nvramOpen lowDevice h'.image false = .ok (some h'') := by
  obtain ⟨h0, h, hopen, rfl, -, hoffset, hsize⟩ :=
    runOps_blankImage 0x2aaa8000 (by decide) (show 32000 < 32768 by decide)
  refine ⟨h0, hopen, (nvramCommit_reopen_iff _ (show 4 ∣ nvramMinSpace by decide)
    (Nat.le_refl _) blankImage h0 hopen _).mpr ?_⟩
  rw [used_eq_size, hsize, hoffset]
  · decide
  · rw [capacity, hsize, hoffset]
    decide

/-- The opener refuses a length that is the whole partition. -/
theorem fullImage_not_reopened :
    ∃ h0 : Handle lowDevice,
      nvramOpen lowDevice blankImage false = .ok (some h0) ∧
      ∃ h', nvramCommit (runOps h0 [.set varName (longValue 32659)]) = .ok h' ∧
        ¬∃ h'', nvramOpen lowDevice h'.image false = .ok (some h'') := by
  obtain ⟨h0, h, hopen, hrun, -, hoffset, hsize⟩ :=
    runOps_blankImage 0x2aaa8000 (by decide) (show 32659 < 32768 by decide)
  have hf := not_faults_smallDevice hoffset
  obtain ⟨ts, -, -, hcommit⟩ := nvramCommit_ok hf
  obtain ⟨hfind, himage0, -⟩ := nvramOpen_spec hopen
  obtain ⟨himage, hoffset0⟩ := runOps_frame h0 [.set varName (longValue 32659)]
  rw [hrun] at himage hoffset0
  have hused : used h = 32743 := by
    rw [used_eq_size, hsize]
    rw [capacity, hsize, hoffset]
    decide
  -- the packed size is the whole partition, which a header may not name
  have hlen : newLen h = 32768 := by
    rw [newLen, hused]
    rfl
  refine ⟨h0, hopen, _, by rw [hrun]; exact hcommit, ?_⟩
  rw [(rehashed_frame (committed h) ts).1]
  rw [← hoffset0] at hfind
  rw [reopen_iff hf hfind (himage.trans himage0) (by rw [hlen]; decide), hlen, hoffset,
    room_eq (Nat.zero_le _)]
  decide

/-- A value that is longer than the data area is set, and lost when it is committed. -/
theorem longValue_lost :
    ∃ h0 : Handle lowDevice,
      nvramOpen lowDevice blankImage false = .ok (some h0) ∧
      (nvramSet h0 varName (longValue 32700)).2 = 0 ∧
      ∃ h', nvramCommit (nvramSet h0 varName (longValue 32700)).1 = .ok h' ∧
        ∃ t : Tuple, nvramGet (nvramSet h0 varName (longValue 32700)).1 t.1 = some t.2 ∧
          ¬ImageHas h' t := by
  obtain ⟨h0, h, hopen, hrun, hret, hoffset, hsize⟩ :=
    runOps_blankImage 0x2aaa8000 (by decide) (show 32700 < 32768 by decide)
  have hset : (nvramSet h0 varName (longValue 32700)).1 = h := by
    rw [← hrun, runOps, List.foldl_cons, List.foldl_nil, Op.run]
  refine ⟨h0, hopen, hret, ?_⟩
  rw [hset]
  apply exists_lost (not_faults_smallDevice hoffset)
  rw [capacity, hsize, hoffset]
  decide

end HandsomeMod.Native.Nvram
