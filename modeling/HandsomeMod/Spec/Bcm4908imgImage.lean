import HandsomeMod.ForStd.Except
import HandsomeMod.Native.Bcm4908img
import HandsomeMod.Spec.Bcm4908imgCrc

/-!
# Parts of a BCM4908 image

Reads and writes inside of a file, and an image with a boot file system of one block as the parser
finds it.
-/

namespace HandsomeMod.Native.Bcm4908img

open ForStd

/-! ### Bytes of a file -/

/-- A read gives what is asked for, or what is left. -/
theorem length_readAt (fp : List UInt8) (pos n : Nat) :
    (readAt fp pos n).length = min n (fp.length - pos) := by
  rw [readAt, List.length_take, List.length_drop]

/-- A byte of what was read is that of the file. -/
theorem getElem?_readAt (fp : List UInt8) (pos : Nat) {n i : Nat} (h : i < n) :
    (readAt fp pos n)[i]? = fp[pos + i]? := by
  rw [readAt, List.getElem?_take_of_lt h, List.getElem?_drop]

/-- A read depends on the bytes that it returns. -/
theorem readAt_congr {fp fp' : List UInt8} {pos n : Nat}
    (h : ∀ i, pos ≤ i → i < pos + n → fp'[i]? = fp[i]?) : readAt fp' pos n = readAt fp pos n := by
  apply List.ext_getElem?
  intro i
  by_cases hi : i < n
  · rw [getElem?_readAt _ _ hi, getElem?_readAt _ _ hi]
    exact h (pos + i) (by omega) (by omega)
  · rw [List.getElem?_eq_none (by rw [length_readAt]; omega),
      List.getElem?_eq_none (by rw [length_readAt]; omega)]

section WriteAt

variable {fp bytes : List UInt8} {pos : Nat} (h : pos + bytes.length ≤ fp.length)

include h

/-- A write inside of the file keeps its length. -/
theorem length_writeAt : (writeAt fp pos bytes).length = fp.length := by
  rw [writeAt, List.length_append, List.length_append, List.length_take, List.length_drop]
  omega

/-- The bytes that were written. -/
theorem getElem?_writeAt_inside {i : Nat} (hi : i < bytes.length) :
    (writeAt fp pos bytes)[pos + i]? = bytes[i]? := by
  have htake : (fp.take pos).length = pos := by
    rw [List.length_take]
    omega
  rw [writeAt, List.append_assoc, List.getElem?_append_right (by omega), htake,
    Nat.add_sub_cancel_left, List.getElem?_append_left hi]

/-- A write keeps the other bytes. -/
theorem getElem?_writeAt_outside {i : Nat} (hi : i < pos ∨ pos + bytes.length ≤ i) :
    (writeAt fp pos bytes)[i]? = fp[i]? := by
  have htake : (fp.take pos).length = pos := by
    rw [List.length_take]
    omega
  rw [writeAt]
  rcases hi with hi | hi
  · rw [List.append_assoc, List.getElem?_append_left (by omega), List.getElem?_take_of_lt hi]
  · have hlen : (fp.take pos ++ bytes).length = pos + bytes.length := by
      rw [List.length_append, htake]
    rw [List.getElem?_append_right (by omega), hlen, List.getElem?_drop]
    congr 1
    omega

/-- What was written is read again. -/
theorem readAt_writeAt_same : readAt (writeAt fp pos bytes) pos bytes.length = bytes := by
  apply List.ext_getElem?
  intro i
  by_cases hi : i < bytes.length
  · rw [getElem?_readAt _ _ hi, getElem?_writeAt_inside h hi]
  · rw [List.getElem?_eq_none (by rw [length_readAt]; omega), List.getElem?_eq_none (by omega)]

end WriteAt

/-! ### The vendor tail -/

/-- The length of the vendor tail that the parser sees at the end of a file -/
def vendorTail (fp : List UInt8) : Nat :=
  if ((readAt fp (fp.length - 1024) 1024).drop (1024 - sizeofLinksysTail)).take 9 =
      [0x2e, 0x4c, 0x49, 0x4e, 0x4b, 0x53, 0x59, 0x53, 0x2e] then
    sizeofLinksysTail
  else 0

/-- There is no vendor tail, or one of Linksys. -/
theorem vendorTail_cases (fp : List UInt8) :
    vendorTail fp = 0 ∨ vendorTail fp = sizeofLinksysTail := by
  rw [vendorTail]
  split
  · exact .inr rfl
  · exact .inl rfl

/-- Nine bytes of the file decide. -/
theorem vendorTail_eq {fp : List UInt8} (h : 1024 ≤ fp.length) :
    vendorTail fp = if readAt fp (fp.length - sizeofLinksysTail) 9 =
        [0x2e, 0x4c, 0x49, 0x4e, 0x4b, 0x53, 0x59, 0x53, 0x2e] then
      sizeofLinksysTail
    else 0 := by
  have hmagic : ((readAt fp (fp.length - 1024) 1024).drop (1024 - sizeofLinksysTail)).take 9 =
      readAt fp (fp.length - sizeofLinksysTail) 9 := by
    have hpos : fp.length - 1024 + (1024 - sizeofLinksysTail) = fp.length - sizeofLinksysTail := by
      rw [sizeofLinksysTail]
      omega
    have hmin : min 9 (1024 - (1024 - sizeofLinksysTail)) = 9 := by decide
    rw [readAt, readAt, List.drop_take, List.drop_drop, List.take_take, hpos, hmin]
  rw [vendorTail, hmagic]

/-! ### What the parser finds -/

/-- The offset of the image in a file: there may be a vendor header. -/
def cferomOffset (fp : List UInt8) : Nat :=
  if beField 4 (readAt fp 0 1024) 0 = 0x2a23245e then beField 4 (readAt fp 0 1024) 4 else 0

/-- The offset of the tail of the image -/
def tailOffset (fp : List UInt8) : Nat := fp.length - sizeofTail - vendorTail fp

/-- The offsets are searched for one behind the other. -/
private theorem parseOffsets_eq (fp : List UInt8) : parseOffsets fp =
    if (readAt fp 0 1024).length ≠ 1024 then .error .eio
    else
      findBootfs fp (tailOffset fp) (tailOffset fp + 1) (cferomOffset fp) >>= fun bootfsOffset =>
        findRootfs fp (tailOffset fp) (tailOffset fp + 1) 0 bootfsOffset >>= fun offsets =>
          .ok {
            cferomOffset := cferomOffset fp
            bootfsOffset := bootfsOffset
            paddingOffset := offsets.1
            rootfsOffset := offsets.2
            tailOffset := tailOffset fp } := rfl

/-- The parser accepts a file exactly if it finds all of them. -/
theorem parseOffsets_eq_ok_iff {fp : List UInt8} {info : Info} : parseOffsets fp = .ok info ↔
    1024 ≤ fp.length ∧ info.cferomOffset = cferomOffset fp ∧ info.tailOffset = tailOffset fp ∧
      findBootfs fp (tailOffset fp) (tailOffset fp + 1) (cferomOffset fp) =
        .ok info.bootfsOffset ∧
      findRootfs fp (tailOffset fp) (tailOffset fp + 1) 0 info.bootfsOffset =
        .ok (info.paddingOffset, info.rootfsOffset) := by
  have hread : (readAt fp 0 1024).length ≠ 1024 ↔ ¬1024 ≤ fp.length := by
    rw [length_readAt]
    omega
  -- the two searches depend on each other only through the offset found first
  rw [parseOffsets_eq]
  constructor
  · intro h
    split at h
    · cases h
    · next hlen =>
      obtain ⟨bootfsOffset, hboot, h⟩ := bind_ok h
      obtain ⟨offsets, hroot, h⟩ := bind_ok h
      rw [hread, not_not] at hlen
      cases h
      exact ⟨hlen, rfl, rfl, hboot, hroot⟩
  · rintro ⟨hlen, hcferom, htail, hboot, hroot⟩
    rw [if_neg (hread.not.mpr (not_not.mpr hlen)), hboot, ok_bind, hroot, ok_bind, ← hcferom,
      ← htail]

/-- The bootfs is not in front of where the search starts, and in front of the tail. -/
theorem findBootfs_ok {fp : List UInt8} {T fuel pos bootfs : Nat}
    (h : findBootfs fp T fuel pos = .ok bootfs) : pos ≤ bootfs ∧ bootfs < T := by
  induction fuel generalizing pos with
  | zero => cases h
  | succ fuel ih =>
    rw [findBootfs] at h
    split at h
    · next hlt =>
      simp only at h
      split at h
      · cases h
      · split at h
        · cases h
          exact ⟨Nat.le_refl _, hlt⟩
        · obtain ⟨hle, hend⟩ := ih h
          exact ⟨by omega, hend⟩
    · cases h

/-- The tail of an image that the parser finds is in the file, and the image is before it. -/
theorem parseOffsets_bounds {fp : List UInt8} {info : Info} (h : parseOffsets fp = .ok info) :
    info.cferomOffset ≤ info.bootfsOffset ∧ info.bootfsOffset < info.tailOffset ∧
      info.tailOffset + sizeofTail + vendorTail fp = fp.length := by
  obtain ⟨hlen, hcferom, htail, hboot, -⟩ := parseOffsets_eq_ok_iff.mp h
  obtain ⟨hle, hlt⟩ := findBootfs_ok hboot
  rw [hcferom, htail]
  refine ⟨hle, hlt, ?_⟩
  rw [tailOffset, sizeofTail]
  rcases vendorTail_cases fp with hv | hv
  · omega
  · rw [hv, sizeofLinksysTail]
    omega

/-- The checksum of a part of a file -/
theorem parseCrc32_from {fp : List UInt8} {start T : Nat} (hle : start ≤ T) (h : T ≤ fp.length) :
    parseCrc32 fp start T = .ok (Crc.accumulate 0xffffffff (readAt fp start (T - start))) := by
  have hall : T - start - (fp.drop start).length = 0 := by
    rw [List.length_drop]
    omega
  rw [parseCrc32]
  simp only [crcLoop_eq_otrx, Otrx.crcLoop_eq _ _ (Nat.lt_succ_self _)]
  rw [if_neg (not_not_intro hall), readAt]

/-- The parser accepts an image whose checksum is the one in its tail. -/
theorem parse_ok_iff {fp : List UInt8} {info : Info} : parse fp = .ok info ↔
    parseOffsets fp = .ok info ∧
      Crc.accumulate 0xffffffff
          (readAt fp info.cferomOffset (info.tailOffset - info.cferomOffset)) =
        tailCrc32 (readAt fp info.tailOffset sizeofTail) := by
  -- with the offsets known, parsing is the comparison of the two checksums
  have hbody : ∀ info', parseOffsets fp = .ok info' → (parse fp = .ok info ↔
      Crc.accumulate 0xffffffff
          (readAt fp info'.cferomOffset (info'.tailOffset - info'.cferomOffset)) =
        tailCrc32 (readAt fp info'.tailOffset sizeofTail) ∧ info' = info) := by
    intro info' hoffs
    obtain ⟨hle, hlt, hend⟩ := parseOffsets_bounds hoffs
    have hread : (readAt fp info'.tailOffset sizeofTail).length = sizeofTail := by
      rw [length_readAt]
      omega
    rw [parse, hoffs, ok_bind, parseCrc32_from (by omega) (by omega), ok_bind]
    simp only [hread, ne_eq, not_true_eq_false, if_false]
    split
    · next hne => exact iff_of_false (fun h => by cases h) fun h => hne h.1
    · next heq =>
      rw [not_not] at heq
      constructor
      · intro h
        cases h
        exact ⟨heq, rfl⟩
      · rintro ⟨-, rfl⟩
        rfl
  constructor
  · intro h
    obtain ⟨info', hoffs, -⟩ := bind_ok h
    obtain ⟨hcrc, rfl⟩ := (hbody info' hoffs).mp h
    exact ⟨hoffs, hcrc⟩
  · rintro ⟨hoffs, hcrc⟩
    exact (hbody info hoffs).mpr ⟨hcrc, rfl⟩

/-! ### A boot file system of one block -/

/-- A byte of the file by what was read. -/
private theorem getElem?_of_readAt {fp l : List UInt8} {pos n i : Nat} (h : readAt fp pos n = l)
    (hi : i < n) : fp[pos + i]? = l[i]? := by
  rw [← h, getElem?_readAt _ _ hi]

/-- The first byte of a number that is read -/
private theorem beField_four_div {fp : List UInt8} {pos n : Nat} {b : UInt8} (hn : 4 ≤ n)
    (h : fp[pos]? = some b) : beField 4 (readAt fp pos n) 0 / 2 ^ 24 = b.toNat := by
  have hfirst : (readAt fp pos n).getD 0 0 = b := by
    rw [List.getD_eq_getElem?_getD, getElem?_readAt _ _ (by omega), Nat.add_zero, h]
    rfl
  have h1 := ((readAt fp pos n).getD 1 0).toNat_lt
  have h2 := ((readAt fp pos n).getD 2 0).toNat_lt
  have h3 := ((readAt fp pos n).getD 3 0).toNat_lt
  simp only [beField, loadBE, Nat.zero_add, hfirst]
  omega

/-- The search ends at a block that starts with a node. -/
private theorem findBootfs_here {fp : List UInt8} {tailOffset fuel pos : Nat}
    (hpos : pos < tailOffset)
    (hboot : readAt fp pos 2 = [0x85, 0x19]) :
    findBootfs fp tailOffset (fuel + 1) pos = .ok pos := by
  have hmagic : beField 2 [0x85, 0x19] 0 = 0x8519 := by decide
  rw [findBootfs, if_pos hpos]
  simp only [hboot, hmagic]
  rfl

/-- A block with another byte at its start is not erased. -/
private theorem isAllFf_readAt {fp : List UInt8} {pos n : Nat} {b : UInt8} (hn : 0 < n)
    (h : fp[pos]? = some b) (hb : b ≠ 0xff) : isAllFf (readAt fp pos n) = false := by
  have hmem : b ∈ readAt fp pos n := by
    apply List.mem_of_getElem? (i := 0)
    rw [getElem?_readAt _ _ hn, Nat.add_zero, h]
  exact List.all_eq_false.mpr ⟨b, hmem, by simpa using hb⟩

/-- A block that starts with neither 0xff nor the magic of UBI is skipped. -/
theorem findRootfs_skip {fp : List UInt8} {tailOffset fuel pos : Nat} {b : UInt8}
    (hpos : pos < tailOffset) (hin : pos + 256 ≤ fp.length) (h : fp[pos]? = some b) (hb : b ≠ 0xff)
    (hubi : b ≠ 0x55) : findRootfs fp tailOffset (fuel + 1) 0 pos =
      findRootfs fp tailOffset fuel 0 (pos + 0x20000) := by
  have hlen : (readAt fp pos 256).length = 256 := by
    rw [length_readAt]
    omega
  have hmagic : beField 4 (readAt fp pos 256) 0 ≠ ubiEcHdrMagic := by
    intro heq
    have hdiv := beField_four_div (show 4 ≤ 256 by decide) h
    rw [heq] at hdiv
    exact hubi (UInt8.toNat_inj.mp hdiv.symm)
  have hff := isAllFf_readAt (show 0 < 256 by decide) h hb
  rw [findRootfs, if_pos hpos]
  simp only [ne_eq, not_true_eq_false, if_false, hlen, hff, hmagic, Bool.false_eq_true, and_false]

/-- The search ends at a block that starts with the magic of UBI. -/
private theorem findRootfs_here {fp : List UInt8} {tailOffset fuel pos : Nat}
    (hpos : pos < tailOffset)
    (hin : pos + 256 ≤ fp.length) (hubi : readAt fp pos 4 = [0x55, 0x42, 0x49, 0x23]) :
    findRootfs fp tailOffset (fuel + 1) 0 pos = .ok (0, pos) := by
  have hlen : (readAt fp pos 256).length = 256 := by
    rw [length_readAt]
    omega
  have hfirst : fp[pos]? = some 0x55 := getElem?_of_readAt hubi (i := 0) (by decide)
  have hmagic : beField 4 (readAt fp pos 256) 0 = ubiEcHdrMagic := by
    -- the magic is in the block's first four bytes
    have hsplit : readAt fp pos 256 = [0x55, 0x42, 0x49, 0x23] ++ readAt fp (pos + 4) 252 := by
      rw [← hubi, readAt, readAt, readAt, ← List.drop_drop, ← List.take_add]
    rw [hsplit]
    simp [beField, loadBE, ubiEcHdrMagic]
  have hff := isAllFf_readAt (show 0 < 256 by decide) hfirst (by decide)
  rw [findRootfs, if_pos hpos]
  simp only [ne_eq, not_true_eq_false, if_false, hlen, hff, hmagic, Bool.false_eq_true, and_false,
    if_true]

/-- The parser finds a boot file system of one block at the start of a file, and UBI behind it. -/
private theorem parseOffsets_block {fp : List UInt8} {n : Nat} (hn : 1024 ≤ n)
    (hlen : fp.length = 0x20000 + n + sizeofTail + vendorTail fp)
    (hboot : readAt fp 0 2 = [0x85, 0x19])
    (hubi : readAt fp 0x20000 4 = [0x55, 0x42, 0x49, 0x23]) :
    parseOffsets fp = .ok {
      cferomOffset := 0
      bootfsOffset := 0
      paddingOffset := 0
      rootfsOffset := 0x20000
      tailOffset := 0x20000 + n } := by
  have htail : fp.length - sizeofTail - vendorTail fp = 0x20000 + n := by omega
  have hfirst : fp[0]? = some 0x85 := getElem?_of_readAt hboot (i := 0) (by decide)
  -- a JFFS2 node is at the start, so there is no header in front of the image
  have hmagic : beField 4 (readAt fp 0 1024) 0 ≠ 0x2a23245e := by
    intro heq
    have hdiv := beField_four_div (show 4 ≤ 1024 by decide) hfirst
    rw [heq] at hdiv
    exact absurd hdiv (by decide)
  have hbootfs : findBootfs fp (0x20000 + n) (0x20000 + n + 1) 0 = .ok 0 :=
    findBootfs_here (by omega) hboot
  -- the first block is skipped, the second has the UBI header
  have hrootfs : findRootfs fp (0x20000 + n) (0x20000 + n + 1) 0 0 = .ok (0, 0x20000) := by
    have hfuel : 0x20000 + n = 0x1ffff + n + 1 := by omega
    rw [findRootfs_skip (by omega) (by omega) hfirst (by decide) (by decide), hfuel]
    exact findRootfs_here (by omega) (by omega) hubi
  have hcferom : cferomOffset fp = 0 := if_neg hmagic
  rw [parseOffsets_eq_ok_iff, hcferom, tailOffset, htail]
  exact ⟨by omega, rfl, rfl, hbootfs, hrootfs⟩

/-- The parser accepts such an image with the checksum of what is before the tail. -/
private theorem parse_image {image vendor : List UInt8} {n : Nat} (hn : 1024 ≤ n)
    (hlen : image.length = 0x20000 + n) (hboot : readAt image 0 2 = [0x85, 0x19])
    (hubi : readAt image 0x20000 4 = [0x55, 0x42, 0x49, 0x23])
    (hvendor : vendorTail (image ++ tail (Crc.accumulate 0xffffffff image) ++ vendor) =
      vendor.length) :
    parse (image ++ tail (Crc.accumulate 0xffffffff image) ++ vendor) = .ok {
      cferomOffset := 0
      bootfsOffset := 0
      paddingOffset := 0
      rootfsOffset := 0x20000
      tailOffset := 0x20000 + n } := by
  -- what is read inside the image does not see the two tails
  have hin : ∀ pos m, pos + m ≤ image.length →
      readAt (image ++ tail (Crc.accumulate 0xffffffff image) ++ vendor) pos m =
        readAt image pos m := by
    intro pos m hm
    rw [List.append_assoc]
    exact readAt_congr fun i _ hi => List.getElem?_append_left (by omega)
  have htail : readAt (image ++ tail (Crc.accumulate 0xffffffff image) ++ vendor) image.length
      sizeofTail = tail (Crc.accumulate 0xffffffff image) := by
    rw [readAt, List.append_assoc, List.drop_left, List.take_left' (length_tail _)]
  refine parse_ok_iff.mpr ⟨?_, ?_⟩
  · apply parseOffsets_block hn
    · rw [List.length_append, List.length_append, length_tail, hlen, hvendor]
    · rw [hin _ _ (by omega), hboot]
    · rw [hin _ _ (by omega), hubi]
  · change Crc.accumulate 0xffffffff (readAt _ 0 (0x20000 + n - 0)) =
      tailCrc32 (readAt _ (0x20000 + n) sizeofTail)
    rw [Nat.sub_zero, ← hlen, hin 0 _ (Nat.zero_add _).le, htail, tailCrc32_tail, readAt,
      List.drop_zero, List.take_length]

/-- A boot file system of one block that starts with some nodes, and a root file system -/
def blocks (nodes : List UInt8) : List UInt8 :=
  nodes ++ List.replicate (0x20000 - nodes.length) 0 ++
    ([0x55, 0x42, 0x49, 0x23] ++ List.replicate 1020 0)

/-- The image of them with its tail and a vendor tail -/
def blockImage (nodes vendor : List UInt8) : List UInt8 :=
  blocks nodes ++ tail (Crc.accumulate 0xffffffff (blocks nodes)) ++ vendor

section BlockImage

variable {nodes : List UInt8} (hlen : nodes.length ≤ 0x20000)

include hlen

/-- The size of the two blocks of the examples. -/
theorem length_blocks : (blocks nodes).length = 0x20400 := by
  simp only [blocks, List.length_append, List.length_replicate, List.length_cons, List.length_nil]
  omega

/-- The second block starts with the magic of UBI. -/
private theorem readAt_blocks_rootfs : readAt (blocks nodes) 0x20000 4 = [0x55, 0x42, 0x49, 0x23]
    := by
  have hboot : (nodes ++ List.replicate (0x20000 - nodes.length) 0).length = 0x20000 := by
    rw [List.length_append, List.length_replicate]
    omega
  rw [blocks, readAt, List.drop_left' hboot]
  rfl

/-- The rest of the second block is zero. -/
private theorem getElem?_blocks_rootfs {i : Nat} (hi : 0x20004 ≤ i) (hend : i < 0x20400) :
    (blocks nodes)[i]? = some 0 := by
  have hboot : (nodes ++ List.replicate (0x20000 - nodes.length) 0).length = 0x20000 := by
    rw [List.length_append, List.length_replicate]
    omega
  have hmagic : ([0x55, 0x42, 0x49, 0x23] : List UInt8).length = 4 := rfl
  rw [blocks, List.getElem?_append_right (by omega), hboot,
    List.getElem?_append_right (by omega), hmagic]
  exact List.getElem?_replicate_of_lt (by omega)

/-- Without a vendor tail -/
theorem vendorTail_blockImage_nil : vendorTail (blockImage nodes []) = 0 := by
  have hlength : (blockImage nodes []).length = 0x20414 := by
    rw [blockImage, List.append_nil, List.length_append, length_tail, length_blocks hlen,
      sizeofTail]
  -- where the Linksys tail would start the image has a zero
  have hzero : (blockImage nodes [])[(blockImage nodes []).length - sizeofLinksysTail]? =
      some 0 := by
    rw [hlength, sizeofLinksysTail, blockImage, List.append_nil,
      List.getElem?_append_left (by rw [length_blocks hlen]; omega)]
    exact getElem?_blocks_rootfs hlen (by omega) (by omega)
  rw [vendorTail_eq (by omega), if_neg]
  intro hmagic
  have hdot := getElem?_of_readAt hmagic (i := 0) (by decide)
  rw [Nat.add_zero, hzero] at hdot
  exact absurd hdot (by decide)

/-- With the tail of Linksys -/
theorem vendorTail_blockImage_linksys {vendor : List UInt8} (hvendor : vendor.length = 256)
    (hmagic : vendor.take 9 = [0x2e, 0x4c, 0x49, 0x4e, 0x4b, 0x53, 0x59, 0x53, 0x2e]) :
    vendorTail (blockImage nodes vendor) = vendor.length := by
  have himage : (blocks nodes ++ tail (Crc.accumulate 0xffffffff (blocks nodes))).length =
      0x20414 := by
    rw [List.length_append, length_tail, length_blocks hlen, sizeofTail]
  have hlength : (blockImage nodes vendor).length = 0x20514 := by
    rw [blockImage, List.length_append, himage, hvendor]
  have hpos : (blockImage nodes vendor).length - sizeofLinksysTail = 0x20414 := by
    rw [hlength, sizeofLinksysTail]
  rw [vendorTail_eq (by omega), hpos, blockImage, readAt, List.drop_left' himage, if_pos hmagic,
    hvendor, sizeofLinksysTail]

omit hlen in

/-- Reads inside of the nodes of the examples. -/
theorem readAt_blockImage (vendor : List UInt8) {pos n : Nat} (h : pos + n ≤ nodes.length) :
    readAt (blockImage nodes vendor) pos n = readAt nodes pos n := by
  rw [blockImage, blocks]
  simp only [List.append_assoc]
  exact readAt_congr fun i _ hi => List.getElem?_append_left (by omega)

/-- An image of these blocks is accepted, with or without vendor tail. -/
theorem parse_blockImage {vendor : List UInt8} (hboot : readAt nodes 0 2 = [0x85, 0x19])
    (hvendor : vendorTail (blockImage nodes vendor) = vendor.length) :
    parse (blockImage nodes vendor) = .ok {
      cferomOffset := 0
      bootfsOffset := 0
      paddingOffset := 0
      rootfsOffset := 0x20000
      tailOffset := 0x20400 } := by
  have htwo : 2 ≤ nodes.length := by
    have hread := length_readAt nodes 0 2
    rw [hboot] at hread
    change 2 = _ at hread
    omega
  have hstart : readAt (blocks nodes) 0 2 = [0x85, 0x19] := by
    rw [← hboot, blocks, List.append_assoc]
    exact readAt_congr fun i _ hi => List.getElem?_append_left (by omega)
  exact parse_image (n := 1024) (Nat.le_refl _) (length_blocks hlen) hstart
    (readAt_blocks_rootfs hlen) hvendor

end BlockImage

end HandsomeMod.Native.Bcm4908img
