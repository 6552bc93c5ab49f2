import HandsomeMod.Spec.OtrxAppend

/-!
# TRX files are read as they were written

What `otrx_create` writes passes `otrx_check`, and `otrx_extract` returns what was appended for a
partition. Offsets are aligned as asked where the mask test sees that they are not aligned yet.
-/

namespace HandsomeMod.Native.Otrx

open ForStd

/-! ### The header -/

/-- A header has its size. -/
private theorem length_bytes (h : TrxHeader) : h.bytes.length = sizeofHdr := by
  simp only [TrxHeader.bytes, List.length_append, length_leBytes]
  rfl

/-- A field of a header by its bytes. -/
private theorem hdrWord_eq {buf : List UInt8} {pos : Nat} {v : UInt32} (hlen : pos + 4 ≤ buf.length)
    (h : (buf.drop pos).take 4 = leBytes 4 v.toNat) : hdrWord buf pos = v := by
  rw [hdrWord, loadLE_of_bytesAt (m := fun k => buf.getD k 0) (v := v.toNat), UInt32.ofNat_toNat]
  · rw [bytesAt_getD hlen, h]
  · exact v.toNat_lt

section

variable (h : TrxHeader)

/-- The magic of a header that was written. -/
private theorem hdrWord_magic : hdrWord h.bytes 0 = h.magic :=
  hdrWord_eq (by rw [length_bytes]; decide) rfl

/-- The length of a header that was written. -/
private theorem hdrWord_length : hdrWord h.bytes 4 = h.length :=
  hdrWord_eq (by rw [length_bytes]; decide) rfl

/-- The checksum of a header that was written. -/
private theorem hdrWord_crc32 : hdrWord h.bytes 8 = h.crc32 :=
  hdrWord_eq (by rw [length_bytes]; decide) rfl

/-- An offset of a header that was written. -/
private theorem hdrWord_offset {i : Nat} (hi : i < trxMaxParts) :
    hdrWord h.bytes (16 + 4 * i) = h.offset i := by
  have hi' : i < 3 := hi
  have hlen : 16 + 4 * i + 4 ≤ h.bytes.length := by
    rw [length_bytes]
    show 16 + 4 * i + 4 ≤ 28
    omega
  apply hdrWord_eq hlen
  interval_cases i <;> rfl

end

/-- A TRX file: a header with the length and the checksum of the file, and what is behind it. -/
structure Trx (hdr : TrxHeader) (body : List UInt8) : Prop where
  magic : hdr.magic = trxMagic
  length : hdr.length.toNat = sizeofHdr + body.length
  crc32 : hdr.crc32 =
    Crc.accumulate 0xffffffff ((hdr.bytes ++ body).drop trxFlagsOffset)

namespace Trx

variable {hdr : TrxHeader} {body : List UInt8}

/-- A TRX file passes the check. -/
theorem check (t : Trx hdr body) : otrxCheck (hdr.bytes ++ body) 0 = .ok () := by
  have hread : ((hdr.bytes ++ body).drop 0).take sizeofHdr = hdr.bytes :=
    List.take_left' (length_bytes hdr)
  have hsize : sizeofHdr = 28 := rfl
  have hflags : trxFlagsOffset = 12 := rfl
  have hdata : ((hdr.bytes ++ body).drop (0 + trxFlagsOffset)).length
      = hdr.length.toNat - trxFlagsOffset := by
    rw [List.length_drop, List.length_append, length_bytes, t.length, Nat.zero_add]
  simp only [otrxCheck, hread, length_bytes, hdrWord_magic, hdrWord_length, hdrWord_crc32,
    t.magic]
  rw [if_neg (not_not.mpr rfl), if_neg (not_not.mpr rfl), if_neg (by rw [t.length]; omega),
    crcLoop_eq _ _ (Nat.lt_succ_self _)]
  -- The file holds all of the bytes that the header counts.
  rw [List.take_of_length_le hdata.le, if_neg (by rw [hdata]; omega), Nat.zero_add, ← t.crc32,
    if_neg (not_not.mpr rfl)]

/-- A partition is what lies between two offsets of the header, or the last offset and the end. -/
private theorem extract (t : Trx hdr body) {i : Nat} (hi : i < trxMaxParts)
    {before part after : List UInt8}
    (hbody : body = before ++ (part ++ after))
    (hoff : (hdr.offset i).toNat = sizeofHdr + before.length)
    (hnext : (after = [] ∧ (i + 1 < trxMaxParts → hdr.offset (i + 1) = 0)) ∨
      (i + 1 < trxMaxParts ∧
        (hdr.offset (i + 1)).toNat = sizeofHdr + before.length + part.length)) :
    otrxExtract (hdr.bytes ++ body) 0 i = some part := by
  have hread : ((hdr.bytes ++ body).drop 0).take sizeofHdr = hdr.bytes :=
    List.take_left' (length_bytes hdr)
  have hsize : sizeofHdr = 28 := rfl
  have hne : ∀ w : UInt32, sizeofHdr ≤ w.toNat → w ≠ 0 := by
    intro w hw h0
    rw [h0] at hw
    exact absurd hw (by decide)
  -- the end is the next offset or, for the last partition, the length of the image
  have hlen : (if i + 1 ≥ trxMaxParts ∨ hdrWord hdr.bytes (16 + 4 * (i + 1)) = 0
      then hdr.length - hdr.offset i
      else hdrWord hdr.bytes (16 + 4 * (i + 1)) - hdr.offset i).toNat = part.length := by
    rcases hnext with ⟨hafter, hzero⟩ | ⟨hlt, hoff'⟩
    · have hlast : i + 1 ≥ trxMaxParts ∨ hdrWord hdr.bytes (16 + 4 * (i + 1)) = 0 := by
        by_cases hmax : i + 1 < trxMaxParts
        · exact Or.inr ((hdrWord_offset hdr hmax).trans (hzero hmax))
        · exact Or.inl (by omega)
      have htotal := t.length
      rw [hbody, hafter, List.append_nil, List.length_append] at htotal
      rw [if_pos hlast, UInt32.toNat_sub_of_le _ _ (UInt32.le_iff_toNat_le.mpr (by omega))]
      omega
    · rw [hdrWord_offset hdr hlt, if_neg (not_or.mpr ⟨by omega, hne _ (by omega)⟩),
        UInt32.toNat_sub_of_le _ _ (UInt32.le_iff_toNat_le.mpr (by omega))]
      omega
  simp only [otrxExtract, hread, length_bytes, hdrWord_magic, hdrWord_length,
    hdrWord_offset hdr hi, t.magic]
  rw [if_neg (not_not.mpr rfl), if_neg (not_not.mpr rfl), if_neg (hne _ (by omega)), hlen,
    Nat.zero_add, extractCopy]
  -- the copy starts at the offset of the header and has just that length
  have hpart : ((hdr.bytes ++ body).drop (hdr.offset i).toNat).take part.length = part := by
    rw [hoff, hbody, ← List.append_assoc,
      List.drop_left' (by rw [List.length_append, length_bytes])]
    exact List.take_left' rfl
  simp only [hpart]
  rw [if_neg (not_not.mpr rfl)]

end Trx

/-! ### What is written -/

variable (fs : String → Option (List UInt8))

/-- All that is appended from an offset on, with the padding at the end. -/
def appendedToEnd (currOffset : Nat) (opts : List Opt) : List UInt8 :=
  appendedAll fs currOffset opts ++
    padding (currOffset + (appendedAll fs currOffset opts).length) 0x1000

/-- The size of the output file. -/
def totalLength (opts : List Opt) : Nat :=
  sizeofHdr + (appendedToEnd fs sizeofHdr opts).length

/-- A header as it is written with a checksum. -/
def TrxHeader.done (hdr : TrxHeader) (crc32 : UInt32) : TrxHeader :=
  { hdr with magic := trxMagic, version := 1, crc32 := crc32 }

/-- The finished header has its checksum. -/
private theorem crc32_done (hdr : TrxHeader) (crc32 : UInt32) : (hdr.done crc32).crc32 = crc32
    := rfl

/-- The header is finished with the checksum of what follows it from the flags on. -/
private theorem writeHdr_def (trx : List UInt8) (hdr : TrxHeader) : writeHdr trx hdr =
    (hdr.done (crcLoop ((((hdr.done hdr.crc32).bytes ++ trx.drop sizeofHdr).drop
      trxFlagsOffset).length + 1) (((hdr.done hdr.crc32).bytes ++ trx.drop sizeofHdr).drop
      trxFlagsOffset) 0xffffffff
      (hdr.length.toUInt64 - UInt64.ofNat trxFlagsOffset).toNat).1).bytes ++
      ((hdr.done hdr.crc32).bytes ++ trx.drop sizeofHdr).drop sizeofHdr := by
  simp only [writeHdr, TrxHeader.done]

/-- The checksum is over the bytes behind its field, which do not depend on it. -/
private theorem drop_done (hdr : TrxHeader) (body : List UInt8) (crc32 : UInt32) :
    ((hdr.done crc32).bytes ++ body).drop trxFlagsOffset =
      ((hdr.done hdr.crc32).bytes ++ body).drop trxFlagsOffset := by
  rw [List.drop_append_of_le_length (by rw [length_bytes]; decide),
    List.drop_append_of_le_length (by rw [length_bytes]; decide)]
  rfl

/-- The header is written with its checksum. -/
private theorem writeHdr_eq (body : List UInt8) (hdr : TrxHeader)
    (hlen : hdr.length.toNat = sizeofHdr + body.length) :
    ∃ crc32, Trx (hdr.done crc32) body ∧
      writeHdr (List.replicate sizeofHdr 0 ++ body) hdr = (hdr.done crc32).bytes ++ body := by
  have hsize : sizeofHdr = 28 := rfl
  -- the file from the flags on is what the checksum covers
  have hlength : (hdr.length.toUInt64 - UInt64.ofNat trxFlagsOffset).toNat =
      (((hdr.done hdr.crc32).bytes ++ body).drop trxFlagsOffset).length := by
    rw [UInt64.toNat_sub_of_le _ _ (UInt64.le_iff_toNat_le.mpr (by
      rw [UInt32.toNat_toUInt64]
      show 12 ≤ hdr.length.toNat
      omega)), UInt32.toNat_toUInt64, List.length_drop, List.length_append, length_bytes, hlen]
    rfl
  refine ⟨Crc.accumulate 0xffffffff
    (((hdr.done hdr.crc32).bytes ++ body).drop trxFlagsOffset), ⟨rfl, hlen, ?_⟩, ?_⟩
  · rw [crc32_done]
    exact (congrArg (Crc.accumulate 0xffffffff) (drop_done hdr body _)).symm
  · rw [writeHdr_def, List.drop_left' List.length_replicate, hlength,
      crcLoop_eq _ _ (Nat.lt_succ_self _), List.take_length, List.drop_left' (length_bytes _)]

/-- The file that `otrx_create` writes. -/
theorem otrxCreate_eq {opts : List Opt} (hread : Readable fs opts)
    (hfiles : numFiles opts ≤ trxMaxParts) (htotal : totalLength fs opts < 2 ^ 32) :
    ∃ hdr, Trx hdr (appendedToEnd fs sizeofHdr opts) ∧
      hdr.offset = (opts.foldl (advance fs) Create.init).offset ∧
      otrxCreate fs opts = some (hdr.bytes ++ appendedToEnd fs sizeofHdr opts) := by
  have hopts : createOpts fs Create.init opts = some (opts.foldl (advance fs) Create.init) := by
    apply createOpts_eq fs hread
    rw [Create.init, Nat.zero_add]
    exact hfiles
  obtain ⟨htrx, hoffset, -⟩ := foldl_advance fs Create.init opts
  have hinit : Create.init.currOffset = sizeofHdr := rfl
  have hinit' : Create.init.trx = List.replicate sizeofHdr 0 := rfl
  rw [hinit] at htrx hoffset
  -- the length fits into its field, so the header names all bytes
  have hlen : (UInt32.ofNat (totalLength fs opts)).toNat =
      sizeofHdr + (appendedToEnd fs sizeofHdr opts).length := by
    rw [UInt32.toNat_ofNat']
    exact Nat.mod_eq_of_lt htotal
  obtain ⟨crc32, htrx', hwrite⟩ := writeHdr_eq (appendedToEnd fs sizeofHdr opts)
    { magic := 0
      length := UInt32.ofNat (totalLength fs opts)
      crc32 := 0
      flags := 0
      version := 0
      offset := (opts.foldl (advance fs) Create.init).offset } hlen
  refine ⟨_, htrx', rfl, ?_⟩
  rw [otrxCreate, hopts, Option.map_some, aligned_eq, htrx, hoffset, hinit', List.append_assoc,
    Nat.add_assoc, ← List.length_append]
  exact congrArg some hwrite

/-! ### Agreement -/

/-- What follows the file of a partition that starts at `currOffset`, in front of the options
`after` with the next partition. -/
def behindFile (currOffset : Nat) (path : String) (between after : List Opt) : List UInt8 :=
  let pad := padding (currOffset + (contentOf fs path).length) 4
  let offset := currOffset + (contentOf fs path).length + pad.length
  pad ++ if after = [] then appendedToEnd fs offset between else appendedAll fs offset between

/-- The file passes the check, offsets are aligned as asked, and each partition is extracted with
its file and what was appended behind it. -/
structure Agree (opts : List Opt) (trx : List UInt8) : Prop where
  check : otrxCheck trx 0 = .ok ()
  aligned : ∀ before alignment after s, opts = before ++ .align alignment :: after →
    createOpts fs Create.init (before ++ [.align alignment]) = some s → alignment ∣ s.currOffset
  extract : ∀ before path between after,
    opts = before ++ .file path :: (between ++ after) → numFiles between = 0 →
    (∀ o ∈ after.head?, o.isFile = true) →
    otrxExtract trx 0 (numFiles before) = some (contentOf fs path ++
      behindFile fs (sizeofHdr + (appendedAll fs sizeofHdr before).length) path between after)

/-- Where an offset is not aligned yet, the mask test of `otrx_create_align` says so. -/
def MaskTestRight (opts : List Opt) : Prop :=
  ∀ before alignment after s, opts = before ++ .align alignment :: after →
    createOpts fs Create.init before = some s →
    s.currOffset &&& (alignment - 1) ≠ 0 ∨ alignment ∣ s.currOffset

/-- The padding aligns an offset if and only if the mask test is right. -/
theorem dvd_add_padding {currOffset alignment : Nat} (h : 1 ≤ alignment) :
    alignment ∣ currOffset + (padding currOffset alignment).length ↔
      currOffset &&& (alignment - 1) ≠ 0 ∨ alignment ∣ currOffset := by
  rw [padding, List.length_replicate]
  have hmod := Nat.mod_lt currOffset h
  have hdiv := Nat.div_add_mod currOffset alignment
  split
  -- the mask is not zero, so the padding ends at the next multiple
  · next hmask =>
    refine iff_of_true ?_ (Or.inl hmask)
    refine ⟨currOffset / alignment + 1, ?_⟩
    rw [Nat.mul_succ]
    omega
  · next hmask =>
    rw [Nat.add_zero]
    exact ⟨Or.inr, fun h => h.resolve_left hmask⟩

/-- The files of some of the options. -/
theorem Readable.mono {opts opts' : List Opt} (h : Readable fs opts) (hsub : opts' ⊆ opts) :
    Readable fs opts' :=
  fun path hmem => h path (hmem.imp (fun hm => hsub hm) fun hm => hsub hm)

/-- The bytes of a partition, and what comes behind them. -/
private theorem appendedToEnd_split (before : List Opt) (path : String) (between after : List Opt) :
    appendedToEnd fs sizeofHdr (before ++ .file path :: (between ++ after)) =
      appendedAll fs sizeofHdr before ++
        ((contentOf fs path ++ behindFile fs
            (sizeofHdr + (appendedAll fs sizeofHdr before).length) path between after) ++
          if after = [] then [] else appendedToEnd fs (sizeofHdr +
            (appendedAll fs sizeofHdr (before ++ .file path :: between)).length) after) := by
  by_cases hafter : after = []
  · rw [hafter, List.append_nil, behindFile, if_pos rfl, if_pos rfl, List.append_nil,
      appendedToEnd, appendedToEnd, appendedAll_append, appendedAll, appended]
    simp only [List.append_assoc, List.length_append, Nat.add_assoc]
  · rw [behindFile, if_neg hafter, if_neg hafter, appendedToEnd, appendedToEnd,
      show before ++ .file path :: (between ++ after)
        = (before ++ .file path :: between) ++ after by simp,
      appendedAll_append, appendedAll_append, appendedAll, appended]
    simp only [List.append_assoc, List.length_append, Nat.add_assoc]

/-- A partition is extracted with what was appended for it. -/
private theorem extract_created {opts : List Opt} {hdr : TrxHeader}
    (hfiles : numFiles opts ≤ trxMaxParts) (htotal : totalLength fs opts < 2 ^ 32)
    (t : Trx hdr (appendedToEnd fs sizeofHdr opts))
    (hoff : hdr.offset = (opts.foldl (advance fs) Create.init).offset)
    {before between after : List Opt} {path : String}
    (hopts : opts = before ++ .file path :: (between ++ after)) (hbetween : numFiles between = 0)
    (hafter : ∀ o ∈ after.head?, o.isFile = true) :
    otrxExtract (hdr.bytes ++ appendedToEnd fs sizeofHdr opts) 0 (numFiles before) =
      some (contentOf fs path ++ behindFile fs
        (sizeofHdr + (appendedAll fs sizeofHdr before).length) path between after) := by
  have hinit : Create.init.currIdx = 0 := rfl
  have hstart : Create.init.currOffset = sizeofHdr := rfl
  have hcount : numFiles opts = numFiles before + (numFiles after + 1) := by
    rw [hopts, numFiles_append, numFiles_cons, numFiles_append, hbetween, Nat.zero_add]
    rfl
  have hsplit := appendedToEnd_split fs before path between after
  rw [← hopts] at hsplit
  have htotal' := congrArg List.length hsplit
  simp only [List.length_append] at htotal'
  rw [totalLength] at htotal
  -- the offset stored is what was appended before, and the header
  have hpos : (hdr.offset (numFiles before)).toNat =
      sizeofHdr + (appendedAll fs sizeofHdr before).length := by
    have hfile := foldl_offset_file fs Create.init before (between ++ after) path
    rw [hinit, Nat.zero_add, hstart, ← hopts, ← hoff] at hfile
    rw [hfile, UInt32.toNat_ofNat']
    exact Nat.mod_eq_of_lt (by omega)
  apply t.extract (by omega) hsplit hpos
  cases after with
  | nil =>
    -- The last partition: the next offset, if there is one, was never set.
    refine Or.inl ⟨rfl, fun _ => ?_⟩
    rw [hoff, foldl_offset_other]
    · rfl
    · rw [hinit, hcount, Nat.zero_add]
      exact Or.inr (Nat.le_refl _)
  | cons o rest =>
    have hfile : o.isFile = true := hafter o rfl
    -- what follows is the next file, its offset is the end of this partition
    cases o with
    | file next =>
      have hmid : opts = (before ++ .file path :: between) ++ .file next :: rest := by
        rw [hopts]
        simp
      have hidx : numFiles (before ++ .file path :: between) = numFiles before + 1 := by
        rw [numFiles_append, numFiles_cons, hbetween]
        rfl
      have hnext := foldl_offset_file fs Create.init (before ++ .file path :: between) rest next
      rw [hinit, Nat.zero_add, hstart, ← hmid, ← hoff, hidx] at hnext
      have hlen : (appendedAll fs sizeofHdr (before ++ .file path :: between)).length =
          (appendedAll fs sizeofHdr before).length + (contentOf fs path ++ behindFile fs
            (sizeofHdr + (appendedAll fs sizeofHdr before).length) path between
              (.file next :: rest)).length := by
        rw [appendedAll_append, appendedAll, appended, behindFile, if_neg (List.cons_ne_nil _ _)]
        simp only [List.append_assoc, List.length_append, Nat.add_assoc]
      rw [List.length_append] at hlen
      rw [numFiles_cons, if_pos hfile] at hcount
      refine Or.inr ⟨by omega, ?_⟩
      rw [hnext, UInt32.toNat_ofNat', hlen, List.length_append]
      rw [Nat.mod_eq_of_lt (by omega)]
      omega
    | append next => cases hfile
    | align alignment => cases hfile
    | bound offset => cases hfile

/-- Creation always succeeds, and creation, check and extraction agree if and only if the mask test
is right for every alignment that is asked for. -/
theorem otrxCreate_agree_iff {opts : List Opt} (hread : Readable fs opts)
    (halign : ∀ alignment, .align alignment ∈ opts → 1 ≤ alignment)
    (hfiles : numFiles opts ≤ trxMaxParts) (htotal : totalLength fs opts < 2 ^ 32) :
    ∃ trx, otrxCreate fs opts = some trx ∧ (Agree fs opts trx ↔ MaskTestRight fs opts) := by
  obtain ⟨hdr, t, hoff, hcreate⟩ := otrxCreate_eq fs hread hfiles htotal
  -- What one alignment does to the offset in front of it.
  have hstep : ∀ before alignment after, opts = before ++ .align alignment :: after →
      ∃ s : Create, createOpts fs Create.init before = some s ∧
        createOpts fs Create.init (before ++ [.align alignment]) = some (s.aligned alignment) ∧
        (alignment ∣ (s.aligned alignment).currOffset ↔
          s.currOffset &&& (alignment - 1) ≠ 0 ∨ alignment ∣ s.currOffset) := by
    intro before alignment after hopts
    have hsub : before ⊆ opts := by
      rw [hopts]
      exact List.subset_append_left _ _
    have hcount : Create.init.currIdx + numFiles before ≤ trxMaxParts := by
      rw [hopts, numFiles_append] at hfiles
      show 0 + numFiles before ≤ trxMaxParts
      omega
    have hbefore := createOpts_eq fs (hread.mono fs hsub) hcount
    refine ⟨_, hbefore, ?_, ?_⟩
    · have hone : createOpts fs Create.init (before ++ [.align alignment]) =
          (createOpts fs Create.init before).bind fun s => createOpts fs s [.align alignment] :=
        List.foldlM_append
      rw [hone, hbefore]
      rfl
    · rw [aligned_eq]
      exact dvd_add_padding (halign alignment (by rw [hopts]; simp))
  refine ⟨_, hcreate, ?_, ?_⟩
  -- in both directions, one alignment at a time
  · intro hagree before alignment after s hopts hs
    obtain ⟨s', hs', hnext, hiff⟩ := hstep before alignment after hopts
    obtain rfl := Option.some.inj (hs'.symm.trans hs)
    exact hiff.mp (hagree.aligned before alignment after _ hopts hnext)
  · intro hmask
    refine ⟨t.check, ?_, ?_⟩
    · intro before alignment after s hopts hs
      obtain ⟨s', hs', hnext, hiff⟩ := hstep before alignment after hopts
      obtain rfl := Option.some.inj (hnext.symm.trans hs)
      exact hiff.mpr (hmask before alignment after s' hopts hs')
    · intro before path between after hopts hbetween hafter
      exact extract_created fs hfiles htotal t hoff hopts hbetween hafter

/-- The mask test is right for powers of two. -/
theorem maskTestRight_of_two_pow {opts : List Opt}
    (h : ∀ alignment, .align alignment ∈ opts → ∃ k, alignment = 2 ^ k) :
    MaskTestRight fs opts := by
  intro before alignment after s hopts _
  obtain ⟨k, rfl⟩ := h alignment (by rw [hopts]; simp)
  rw [Nat.and_two_pow_sub_one_eq_mod]
  by_cases hmod : s.currOffset % 2 ^ k = 0
  · exact Or.inr (Nat.dvd_of_mod_eq_zero hmod)
  · exact Or.inl hmod

/-- One readable file of three bytes. -/
abbrev sampleFs : String → Option (List UInt8) := fun path =>
  if path = "kernel" then some [1, 2, 3] else none

abbrev sampleOpts : List Opt := [.file "kernel", .align 16]

/-- An image of files with alignment and an appended one. -/
theorem otrxCreate_agree_sample :
    ∃ trx, otrxCreate sampleFs sampleOpts = some trx ∧ Agree sampleFs sampleOpts trx := by
  have hread : Readable sampleFs sampleOpts := by
    intro path hmem
    obtain rfl : path = "kernel" := by simpa using hmem
    rfl
  have halign : ∀ alignment, .align alignment ∈ sampleOpts → alignment = 16 := by
    intro alignment hmem
    simpa using hmem
  -- the file has one kernel and its padding
  have htotal : totalLength sampleFs sampleOpts < 2 ^ 32 := by
    simp [totalLength, appendedToEnd, appendedAll, appended, padding, contentOf, sizeofHdr]
    decide
  obtain ⟨trx, hcreate, hiff⟩ := otrxCreate_agree_iff sampleFs hread
    (fun alignment hmem => by rw [halign alignment hmem]; decide) (by decide) htotal
  exact ⟨trx, hcreate, hiff.mpr (maskTestRight_of_two_pow sampleFs
    fun alignment hmem => ⟨4, halign alignment hmem⟩)⟩

/-- The header ends at 28, which `-a 3` leaves as it is: `28 & 2` is zero. -/
theorem otrxCreate_align_three :
    ∃ trx, otrxCreate sampleFs [.align 3] = some trx ∧ ¬ Agree sampleFs [.align 3] trx := by
  refine ⟨_, rfl, fun hagree => ?_⟩
  have hdvd := hagree.aligned [] 3 [] (Create.init.aligned 3) rfl rfl
  exact absurd hdvd (by decide)

end HandsomeMod.Native.Otrx
