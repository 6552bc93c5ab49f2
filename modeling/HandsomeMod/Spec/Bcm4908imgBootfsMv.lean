import HandsomeMod.Spec.Bcm4908imgBootfsEnds

/-!
# What a rename leaves of an image

`bcm4908img_bootfs_mv` writes the tail with the new checksum at the end of the file, where it is
unless there is a vendor tail. The parser has found it at `tail_offset`.
-/

namespace HandsomeMod.Native.Bcm4908img

open ForStd

/-- The first dirent of the walk with a name, with the length of it in the node -/
def FirstMatch (fp : List UInt8) (info : Info) (oldname : List UInt8) (offset nsize : Nat) : Prop :=
  Loop.Visits (nextNode fp fun name => cstr name = oldname) info.bootfsOffset offset ∧
    ∃ next name, readNode filenameMax fp offset = .dirent next name ∧ cstr name = oldname ∧
      name.length = nsize

/-- The bytes of the name of a dirent and of the checksum before it -/
def InName (offset nsize i : Nat) : Prop :=
  offset + offsetofNameCrc ≤ i ∧ i < offset + sizeofRawDirent + nsize

/-- The parser accepts the new file, and of the old one nothing but the name and its checksum and
the checksum in the tail has changed. -/
def KeepsImage (fp : List UInt8) (info : Info) (offset nsize : Nat) (fp' : List UInt8) : Prop :=
  (∃ info', parse fp' = .ok info') ∧
    ∀ i, ¬InName offset nsize i → ¬(info.tailOffset ≤ i ∧ i < info.tailOffset + 4) →
      fp'[i]? = fp[i]?

/-- There is one at most. -/
theorem FirstMatch.unique {fp : List UInt8} {info : Info} {oldname : List UInt8}
    {offset offset' nsize nsize' : Nat} (h : FirstMatch fp info oldname offset nsize)
    (h' : FirstMatch fp info oldname offset' nsize') : offset = offset' ∧ nsize = nsize' := by
  have hend : ∀ offset nsize, FirstMatch fp info oldname offset nsize →
      nextNode fp (fun name => cstr name = oldname) offset = none := by
    rintro offset nsize ⟨-, next, name, hnode, hname, -⟩
    rw [nextNode, hnode, Node.next?, if_pos (by simpa using hname)]
  obtain rfl := h.1.unique h'.1 (hend _ _ h) (hend _ _ h')
  obtain ⟨-, next, name, hnode, -, hlen⟩ := h
  obtain ⟨-, next', name', hnode', -, hlen'⟩ := h'
  rw [hnode] at hnode'
  cases hnode'
  exact ⟨rfl, hlen.symm.trans hlen'⟩

/-! ### The image with another name -/

/-- A file with the bytes of a name and their checksum in a dirent -/
def withName (fp : List UInt8) (offset : Nat) (bytes : List UInt8) : List UInt8 :=
  writeAt
    (writeAt fp (offset + offsetofNameCrc) (leBytes 4 (Crc.accumulate 0 bytes).toNat))
    (offset + sizeofRawDirent) bytes

/-- The checksum of an image -/
def imageCrc32 (fp : List UInt8) (info : Info) : UInt32 :=
  Crc.accumulate 0xffffffff (readAt fp info.cferomOffset (info.tailOffset - info.cferomOffset))

/-- The tail of an image with the checksum for another name -/
def newTail (fp : List UInt8) (info : Info) (offset : Nat) (bytes : List UInt8) : List UInt8 :=
  leBytes 4 (imageCrc32 (withName fp offset bytes) info).toNat ++
    (readAt fp info.tailOffset sizeofTail).drop 4

/-- The file with another name, and with the new tail at some position -/
def renamedAt (pos : Nat) (fp : List UInt8) (info : Info) (offset : Nat) (bytes : List UInt8) :
    List UInt8 :=
  writeAt (withName fp offset bytes) pos (newTail fp info offset bytes)

/-- The parser finds an image with another name, with its tail where it was; if the name makes a
vendor tail appear, the checksum is right by accident. -/
def FoundRenamed (fp : List UInt8) (info : Info) (offset : Nat) (bytes : List UInt8) : Prop :=
  ∃ info', parseOffsets (renamedAt info.tailOffset fp info offset bytes) = .ok info' ∧
    (info'.tailOffset = info.tailOffset ∨
      Crc.accumulate 0xffffffff (readAt (renamedAt info.tailOffset fp info offset bytes)
          info'.cferomOffset (info'.tailOffset - info'.cferomOffset)) =
        tailCrc32 (readAt (renamedAt info.tailOffset fp info offset bytes) info'.tailOffset
          sizeofTail))

/-- The vendor tail ends with the new tail already, but for the name, and with it there the parser
accepts the file. -/
def VendorTailFits (fp : List UInt8) (info : Info) (offset : Nat) (bytes : List UInt8) : Prop :=
  (∃ info', parse (renamedAt (fp.length - sizeofTail) fp info offset bytes) = .ok info') ∧
    ∀ k < sizeofTail, ¬InName offset bytes.length (fp.length - sizeofTail + k) →
      (newTail fp info offset bytes)[k]? = fp[fp.length - sizeofTail + k]?

/-! ### The dirent that is renamed -/

/-- A dirent that is read is in the file. -/
theorem readNode_dirent {nameSize : Nat} {fp : List UInt8} {offset next : Nat} {name : List UInt8}
    (h : readNode nameSize fp offset = .dirent next name) :
    offset + sizeofRawDirent + name.length ≤ fp.length := by
  -- the three reads of header, dirent and name, each as long as it was asked for
  rw [readNode] at h
  simp only at h
  split at h
  · cases h
  · next hnode =>
    split at h
    · cases h
    · split at h
      · cases h
      · split at h
        · cases h
        · next hdirent =>
          split at h
          · cases h
          · split at h
            · cases h
            · next hname =>
              cases h
              simp only [ne_eq, not_not, List.length_append, length_readAt] at hnode hdirent hname
              rw [length_readAt]
              simp only [sizeofUnknownNode, sizeofRawDirent] at hnode hdirent hname ⊢
              omega

/-- As many bytes are written as the old name has. -/
theorem length_argBytes (newname : List UInt8) (behind : Nat → UInt8) (n : Nat) :
    (argBytes newname behind n).length = n := by
  rw [argBytes, List.length_map, List.length_range]

section Dirent

variable {fp : List UInt8} {offset : Nat} {bytes : List UInt8}
  (hin : offset + sizeofRawDirent + bytes.length ≤ fp.length)

include hin

/-- Writing the checksum of the name keeps the length of the file. -/
private theorem length_withCrc :
    (writeAt fp (offset + offsetofNameCrc) (leBytes 4 (Crc.accumulate 0 bytes).toNat)).length =
      fp.length := by
  apply length_writeAt
  rw [length_leBytes]
  rw [sizeofRawDirent] at hin
  rw [offsetofNameCrc]
  omega

/-- Writing name and checksum keeps the length of the file. -/
private theorem length_withName : (withName fp offset bytes).length = fp.length := by
  rw [withName, length_writeAt (by rw [length_withCrc hin]; omega), length_withCrc hin]

/-- The rest of the file stays. -/
private theorem getElem?_withName {i : Nat} (hi : ¬InName offset bytes.length i) :
    (withName fp offset bytes)[i]? = fp[i]? := by
  have hsize : offsetofNameCrc + 4 = sizeofRawDirent := rfl
  have hout : i < offset + offsetofNameCrc ∨ offset + sizeofRawDirent + bytes.length ≤ i := by
    rw [InName] at hi
    omega
  rw [withName, getElem?_writeAt_outside (by rw [length_withCrc hin]; omega) (by omega),
    getElem?_writeAt_outside (by rw [length_leBytes]; omega) (by rw [length_leBytes]; omega)]

end Dirent

/-! ### The new image -/

/-- The checksum in the tail is its first field. -/
private theorem tailCrc32_leBytes (crc32 : UInt32) (rest : List UInt8) :
    tailCrc32 (leBytes 4 crc32.toNat ++ rest) = crc32 := by
  have hbytes : bytesAt (fun k => (leBytes 4 crc32.toNat ++ rest).getD k 0) 0 4 =
      leBytes 4 crc32.toNat := by
    have hle : 0 + 4 ≤ (leBytes 4 crc32.toNat ++ rest).length := by
      rw [List.length_append, length_leBytes]
      omega
    rw [bytesAt_getD hle, List.drop_zero, List.take_left' (length_leBytes _ _)]
  have hload := loadLE_of_bytesAt hbytes crc32.toNat_lt
  simp only [Nat.zero_add] at hload
  rw [tailCrc32, hload, UInt32.ofNat_toNat]

/-- The first eight bytes tell where the image is. -/
private theorem cferomOffset_congr {fp fp' : List UInt8} (h : ∀ i < 8, fp'[i]? = fp[i]?) :
    cferomOffset fp' = cferomOffset fp := by
  have hread : ∀ i < 8, (readAt fp' 0 1024)[i]? = (readAt fp 0 1024)[i]? := by
    intro i hi
    rw [getElem?_readAt _ _ (by omega), getElem?_readAt _ _ (by omega), Nat.zero_add, h i hi]
  rw [cferomOffset, cferomOffset, beField_congr 0 fun i hi => hread _ (by omega),
    beField_congr 4 fun i hi => hread _ (by omega)]

/-- Behind its checksum the new tail is the old one. -/
theorem getElem?_newTail (fp : List UInt8) (info : Info) (offset : Nat) (bytes : List UInt8)
    {i : Nat} (hi : 4 ≤ i) (hend : i < sizeofTail) :
    (newTail fp info offset bytes)[i]? = fp[info.tailOffset + i]? := by
  obtain ⟨k, rfl⟩ := Nat.exists_eq_add_of_le hi
  rw [newTail, List.getElem?_append_right (by rw [length_leBytes]; omega), length_leBytes,
    List.getElem?_drop, Nat.add_sub_cancel_left, getElem?_readAt _ _ hend]

section Rename

variable {fp : List UInt8} {info : Info} {offset : Nat} {bytes : List UInt8}
  (hoffs : parseOffsets fp = .ok info)
  (hin : offset + sizeofRawDirent + bytes.length ≤ fp.length)

include hoffs

/-- The tail that is written has the size of a tail. -/
private theorem length_newTail : (newTail fp info offset bytes).length = sizeofTail := by
  obtain ⟨-, -, hend⟩ := parseOffsets_bounds hoffs
  rw [newTail, List.length_append, length_leBytes, List.length_drop, length_readAt]
  rw [sizeofTail] at hend ⊢
  omega

include hin

/-- The rename keeps the length of the file if the tail is written inside of it. -/
private theorem length_renamedAt {pos : Nat} (hpos : pos + sizeofTail ≤ fp.length) :
    (renamedAt pos fp info offset bytes).length = fp.length := by
  rw [renamedAt, length_writeAt (by rw [length_newTail hoffs, length_withName hin]; exact hpos),
    length_withName hin]

/-- Before and behind the tail -/
private theorem getElem?_renamedAt {pos i : Nat} (hpos : pos + sizeofTail ≤ fp.length)
    (hi : i < pos ∨ pos + sizeofTail ≤ i) :
    (renamedAt pos fp info offset bytes)[i]? = (withName fp offset bytes)[i]? := by
  rw [renamedAt, getElem?_writeAt_outside (by rw [length_newTail hoffs, length_withName hin]; omega)
    (by rw [length_newTail hoffs]; exact hi)]

/-- In the tail -/
theorem getElem?_renamedAt_tail {pos i : Nat} (hpos : pos + sizeofTail ≤ fp.length)
    (hi : i < sizeofTail) : (renamedAt pos fp info offset bytes)[pos + i]? =
      (newTail fp info offset bytes)[i]? := by
  rw [renamedAt, getElem?_writeAt_inside (by rw [length_newTail hoffs, length_withName hin]; omega)
    (by rw [length_newTail hoffs]; exact hi)]

/-- With the new tail in the place of the old one, nothing else changes. -/
private theorem renamedAt_tailOffset_frame {i : Nat} (hname : ¬InName offset bytes.length i)
    (hcrc : ¬(info.tailOffset ≤ i ∧ i < info.tailOffset + 4)) :
    (renamedAt info.tailOffset fp info offset bytes)[i]? = fp[i]? := by
  obtain ⟨-, -, hend⟩ := parseOffsets_bounds hoffs
  by_cases hi : i < info.tailOffset ∨ info.tailOffset + sizeofTail ≤ i
  · rw [getElem?_renamedAt hoffs hin (by omega) hi, getElem?_withName hin hname]
  · obtain ⟨k, rfl⟩ := Nat.exists_eq_add_of_le (show info.tailOffset ≤ i by omega)
    rw [getElem?_renamedAt_tail hoffs hin (by omega) (by omega),
      getElem?_newTail _ _ _ _ (by omega) (by omega)]

/-- A vendor header is before all dirents. -/
private theorem cferomOffset_renamedAt :
    cferomOffset (renamedAt info.tailOffset fp info offset bytes) = cferomOffset fp := by
  obtain ⟨hlen, -⟩ := parseOffsets_eq_ok_iff.mp hoffs
  obtain ⟨-, -, hend⟩ := parseOffsets_bounds hoffs
  apply cferomOffset_congr
  intro i hi
  apply renamedAt_tailOffset_frame hoffs hin
  -- the name is not in the first bytes, the tail is behind them
  · rw [InName, offsetofNameCrc]
    omega
  · rw [sizeofTail] at hend
    rcases vendorTail_cases fp with hv | hv
    · omega
    · rw [hv, sizeofLinksysTail] at hend
      omega

/-- The checksum in the new tail is the one of the new image. -/
private theorem renamedAt_crc32 {info' : Info} (hcferom : info'.cferomOffset = info.cferomOffset)
    (htail : info'.tailOffset = info.tailOffset) :
    Crc.accumulate 0xffffffff (readAt (renamedAt info.tailOffset fp info offset bytes)
        info'.cferomOffset (info'.tailOffset - info'.cferomOffset)) =
      tailCrc32 (readAt (renamedAt info.tailOffset fp info offset bytes) info'.tailOffset
        sizeofTail) := by
  obtain ⟨hle, hlt, hend⟩ := parseOffsets_bounds hoffs
  -- the image in front of the tail is the renamed file's
  have himage : readAt (renamedAt info.tailOffset fp info offset bytes) info.cferomOffset
      (info.tailOffset - info.cferomOffset) =
      readAt (withName fp offset bytes) info.cferomOffset
        (info.tailOffset - info.cferomOffset) :=
    readAt_congr fun i _ hi => getElem?_renamedAt hoffs hin (by omega) (.inl (by omega))
  -- and the tail read back is the one written
  have htail' : readAt (renamedAt info.tailOffset fp info offset bytes) info.tailOffset sizeofTail =
      newTail fp info offset bytes := by
    have hlen : (newTail fp info offset bytes).length = sizeofTail := length_newTail hoffs
    rw [renamedAt, ← hlen]
    exact readAt_writeAt_same (by rw [length_newTail hoffs, length_withName hin]; omega)
  rw [hcferom, htail, himage, htail', newTail, tailCrc32_leBytes]
  rfl

/-- The parser accepts the new image where it finds it. -/
private theorem parse_renamedAt_iff :
    (∃ info', parse (renamedAt info.tailOffset fp info offset bytes) = .ok info') ↔
      FoundRenamed fp info offset bytes := by
  obtain ⟨-, hcferom, -⟩ := parseOffsets_eq_ok_iff.mp hoffs
  constructor
  · rintro ⟨info', hparse⟩
    obtain ⟨hoffs', hcrc⟩ := parse_ok_iff.mp hparse
    exact ⟨info', hoffs', .inr hcrc⟩
  · rintro ⟨info', hoffs', htail | hcrc⟩
    · obtain ⟨-, hcferom', -⟩ := parseOffsets_eq_ok_iff.mp hoffs'
      rw [cferomOffset_renamedAt hoffs hin, ← hcferom] at hcferom'
      exact ⟨info', parse_ok_iff.mpr ⟨hoffs', renamedAt_crc32 hoffs hin hcferom' htail⟩⟩
    · exact ⟨info', parse_ok_iff.mpr ⟨hoffs', hcrc⟩⟩

variable (bytes) in
/-- A rename that writes the new tail at the end of the file -/
theorem keepsImage_end_iff : KeepsImage fp info offset bytes.length
      (renamedAt (fp.length - sizeofTail) fp info offset bytes) ↔
    vendorTail fp = 0 ∧ FoundRenamed fp info offset bytes ∨
      vendorTail fp ≠ 0 ∧ VendorTailFits fp info offset bytes := by
  obtain ⟨-, -, hend⟩ := parseOffsets_bounds hoffs
  by_cases hv : vendorTail fp = 0
  · -- The end of the file is the place of the tail.
    have hpos : fp.length - sizeofTail = info.tailOffset := by omega
    rw [or_iff_left (fun h => h.1 hv), and_iff_right hv, hpos, ← parse_renamedAt_iff hoffs hin]
    exact and_iff_left fun i => renamedAt_tailOffset_frame hoffs hin
  · have hvendor : vendorTail fp = sizeofLinksysTail := (vendorTail_cases fp).resolve_left hv
    rw [hvendor, sizeofTail, sizeofLinksysTail] at hend
    have hpos : fp.length - sizeofTail + sizeofTail = fp.length := by
      rw [sizeofTail]
      omega
    rw [or_iff_right (fun h => hv h.1), and_iff_right hv, KeepsImage, VendorTailFits]
    -- only the bytes under the new tail are in question, the others are in the frame
    refine and_congr_right fun _ => ⟨fun hframe k hk hname => ?_, fun hfits i hname hcrc => ?_⟩
    · rw [← getElem?_renamedAt_tail hoffs hin hpos.le hk]
      refine hframe _ hname ?_
      rw [sizeofTail]
      omega
    · by_cases hi : i < fp.length - sizeofTail ∨ fp.length - sizeofTail + sizeofTail ≤ i
      · rw [getElem?_renamedAt hoffs hin hpos.le hi, getElem?_withName hin hname]
      · obtain ⟨k, rfl⟩ := Nat.exists_eq_add_of_le (show fp.length - sizeofTail ≤ i by omega)
        rw [getElem?_renamedAt_tail hoffs hin hpos.le (by omega)]
        exact hfits k (by omega) hname

end Rename

/-! ### A name that the parser does not look at -/

/-- What is read of 256 bytes is read of the first four. -/
private theorem readAt_four {fp fp' : List UInt8} {pos : Nat}
    (h : readAt fp' pos 256 = readAt fp pos 256) : readAt fp' pos 4 = readAt fp pos 4 := by
  have htake : ∀ l : List UInt8, readAt l pos 4 = (readAt l pos 256).take 4 := by
    intro l
    rw [readAt, readAt, List.take_take]
    rfl
  rw [htake, htake, h]

/-- The search for the bootfs reads two bytes of each block only. -/
private theorem findBootfs_congr {fp fp' : List UInt8} {T fuel pos bootfs : Nat}
    (h : findBootfs fp T fuel pos = .ok bootfs)
    (hread : ∀ k, pos + k * 0x20000 ≤ bootfs →
      readAt fp' (pos + k * 0x20000) 2 = readAt fp (pos + k * 0x20000) 2) :
    findBootfs fp' T fuel pos = .ok bootfs := by
  -- induction on the blocks: the search reads two bytes of each, up to the one that it finds
  induction fuel generalizing pos with
  | zero => cases h
  | succ fuel ih =>
    have hhere : readAt fp' pos 2 = readAt fp pos 2 := by
      have hzero := hread 0 (by simpa using (findBootfs_ok h).1)
      simpa using hzero
    rw [findBootfs] at h ⊢
    simp only [hhere] at h ⊢
    split at h
    · next hlt =>
      rw [if_pos hlt]
      split at h
      · cases h
      · next hlen =>
        rw [if_neg hlen]
        split at h
        · next hmagic =>
          rw [if_pos hmagic]
          exact h
        · next hmagic =>
          rw [if_neg hmagic]
          refine ih h fun k hk => ?_
          have hnext := hread (k + 1) (by omega)
          rwa [show pos + (k + 1) * 0x20000 = pos + 0x20000 + k * 0x20000 by omega] at hnext
    · cases h

/-- The root filesystem is not in front of where the search starts. -/
private theorem findRootfs_ok {fp : List UInt8} {T fuel padding pos : Nat} {offsets : Nat × Nat}
    (h : findRootfs fp T fuel padding pos = .ok offsets) : pos ≤ offsets.2 := by
  induction fuel generalizing padding pos with
  | zero => cases h
  | succ fuel ih =>
    rw [findRootfs] at h
    split at h
    · simp only at h
      -- the block length does not matter for the bound
      generalize (if padding ≠ 0 then 4 else 256) = length at h
      split at h
      · cases h
      · split at h
        · cases h
          exact Nat.le_refl _
        · exact Nat.le_trans (Nat.le_add_right _ _) (ih h)
    · cases h

/-- The search for the root filesystem reads the first 256 bytes of each block only. -/
private theorem findRootfs_congr {fp fp' : List UInt8} {T fuel padding pos : Nat}
    {offsets : Nat × Nat}
    (h : findRootfs fp T fuel padding pos = .ok offsets)
    (hread : ∀ k, pos + k * 0x20000 ≤ offsets.2 →
      readAt fp' (pos + k * 0x20000) 256 = readAt fp (pos + k * 0x20000) 256) :
    findRootfs fp' T fuel padding pos = .ok offsets := by
  -- Induction on the blocks: the search reads one header for each, up to the one that it finds.
  induction fuel generalizing padding pos with
  | zero => cases h
  | succ fuel ih =>
    have hhere : readAt fp' pos 256 = readAt fp pos 256 := by
      have hzero := hread 0 (by simpa using findRootfs_ok h)
      simpa using hzero
    -- once a padding was seen only four bytes are read
    have hbuf : readAt fp' pos (if padding ≠ 0 then 4 else 256) =
        readAt fp pos (if padding ≠ 0 then 4 else 256) := by
      split
      · exact readAt_four hhere
      · exact hhere
    rw [findRootfs] at h ⊢
    simp only [hbuf] at h ⊢
    generalize (if padding ≠ 0 then 4 else 256) = length at h ⊢
    split at h
    · next hlt =>
      rw [if_pos hlt]
      split at h
      · cases h
      · next hlen =>
        rw [if_neg hlen]
        split at h
        · next hmagic =>
          rw [if_pos hmagic]
          exact h
        · next hmagic =>
          rw [if_neg hmagic]
          refine ih h fun k hk => ?_
          have hnext := hread (k + 1) (by omega)
          rwa [show pos + (k + 1) * 0x20000 = pos + 0x20000 + k * 0x20000 by omega] at hnext
    · cases h

/-- The block of the boot file system starts with the magic of JFFS2. -/
private theorem findBootfs_first {fp : List UInt8} {T fuel pos bootfs : Nat}
    (h : findBootfs fp T fuel pos = .ok bootfs) : fp[bootfs]? = some 0x85 := by
  induction fuel generalizing pos with
  | zero => cases h
  | succ fuel ih =>
    rw [findBootfs] at h
    split at h
    · simp only at h
      split at h
      · cases h
      · next hlen =>
        split at h
        · next hmagic =>
          cases h
          rw [not_not, length_readAt] at hlen
          have hin : bootfs < fp.length := by omega
          have hpos : fp[bootfs]? = some fp[bootfs] := List.getElem?_eq_getElem hin
          -- the magic is big-endian, so its high byte stands first
          have hhigh : (readAt fp bootfs 2).getD 0 0 = fp[bootfs] := by
            rw [List.getD_eq_getElem?_getD, getElem?_readAt _ _ (by omega), Nat.add_zero, hpos]
            rfl
          have hlow := ((readAt fp bootfs 2).getD 1 0).toNat_lt
          simp only [beField, loadBE, Nat.zero_add, hhigh] at hmagic
          have hbyte : fp[bootfs].toNat = (0x85 : UInt8).toNat := by
            change _ = 133
            omega
          rw [hpos, UInt8.toNat_inj.mp hbyte]
        · exact ih h
    · cases h

/-- Name and tail are away from what the parser looks at: the first bytes of the blocks behind the
one with the boot file system, and the place of the magic of a vendor tail. -/
structure NameAway (fp : List UInt8) (info : Info) (offset nsize : Nat) : Prop where
  start : info.bootfsOffset ≤ offset
  room : info.rootfsOffset + 256 ≤ info.tailOffset
  blocks : ∀ i k, InName offset nsize i →
    info.bootfsOffset + (k + 1) * 0x20000 ≤ info.rootfsOffset →
      ¬(info.bootfsOffset + (k + 1) * 0x20000 ≤ i ∧
        i < info.bootfsOffset + (k + 1) * 0x20000 + 256)
  magic : ∀ i, InName offset nsize i →
    ¬(fp.length - sizeofLinksysTail ≤ i ∧ i < fp.length - sizeofLinksysTail + 9)

/-- The parser finds such an image with another name. -/
theorem foundRenamed_of_away {fp : List UInt8} {info : Info} {offset : Nat} {bytes : List UInt8}
    (hoffs : parseOffsets fp = .ok info)
    (hin : offset + sizeofRawDirent + bytes.length ≤ fp.length)
    (haway : NameAway fp info offset bytes.length) : FoundRenamed fp info offset bytes := by
  obtain ⟨hstart, hroom, hblocks, hmagic⟩ := haway
  obtain ⟨hlen, hcferom, htail, hboot, hroot⟩ := parseOffsets_eq_ok_iff.mp hoffs
  obtain ⟨hle, hlt, hend⟩ := parseOffsets_bounds hoffs
  rw [← hcferom, ← htail] at hboot
  rw [← htail] at hroot
  have hlen' : (renamedAt info.tailOffset fp info offset bytes).length = fp.length :=
    length_renamedAt hoffs hin (by omega)
  -- Bytes away from the name and before the tail are as they were.
  have hsame : ∀ i, ¬InName offset bytes.length i → i < info.tailOffset →
      (renamedAt info.tailOffset fp info offset bytes)[i]? = fp[i]? := by
    intro i hname hi
    exact renamedAt_tailOffset_frame hoffs hin hname (by omega)
  have hcferom' := cferomOffset_renamedAt hoffs hin
  have hvendor : vendorTail (renamedAt info.tailOffset fp info offset bytes) = vendorTail fp := by
    have hread : readAt (renamedAt info.tailOffset fp info offset bytes)
        (fp.length - sizeofLinksysTail) 9 = readAt fp (fp.length - sizeofLinksysTail) 9 := by
      apply readAt_congr
      intro i hi hi'
      have hname : ¬InName offset bytes.length i := fun hname => hmagic i hname ⟨hi, hi'⟩
      apply renamedAt_tailOffset_frame hoffs hin hname
      rcases vendorTail_cases fp with hv | hv
      · rw [hv, sizeofTail] at hend
        rw [sizeofLinksysTail] at hi'
        omega
      · rw [hv, sizeofTail] at hend
        rw [sizeofLinksysTail] at hi hend
        omega
    rw [vendorTail_eq (by omega), vendorTail_eq hlen, hlen', hread]
  have htail' : tailOffset (renamedAt info.tailOffset fp info offset bytes) = info.tailOffset := by
    rw [tailOffset, hlen', hvendor, htail]
    rfl
  -- the search up to the bootfs reads no byte of the name
  have hbootfs : findBootfs (renamedAt info.tailOffset fp info offset bytes) info.tailOffset
      (info.tailOffset + 1) info.cferomOffset = .ok info.bootfsOffset := by
    refine findBootfs_congr hboot fun k hk => readAt_congr fun i hi hi' => hsame i ?_ ?_
    · rw [InName, offsetofNameCrc]
      omega
    · have hroot' := findRootfs_ok hroot
      simp only at hroot'
      omega
  -- the bootfs block itself may hold the name, but its first byte already tells that it is no
  -- rootfs
  have hrootfs : findRootfs (renamedAt info.tailOffset fp info offset bytes) info.tailOffset
      (info.tailOffset + 1) 0 info.bootfsOffset =
      .ok (info.paddingOffset, info.rootfsOffset) := by
    have hle' := findRootfs_ok hroot
    simp only at hle'
    have hfirst := findBootfs_first hboot
    have hfirst' : (renamedAt info.tailOffset fp info offset bytes)[info.bootfsOffset]? =
        some 0x85 := by
      rw [hsame _ (by rw [InName, offsetofNameCrc]; omega) hlt, hfirst]
    rw [findRootfs_skip hlt (by omega) hfirst (by decide) (by decide)] at hroot
    rw [findRootfs_skip hlt (by omega) hfirst' (by decide) (by decide)]
    refine findRootfs_congr hroot fun k hk => readAt_congr fun i hi hi' => hsame i ?_ ?_
    · exact fun hname => hblocks i k hname (by simp only at hk; omega) (by omega)
    · simp only at hk
      omega
  -- the same offsets: the checksum was written where the tail is looked for
  refine ⟨info, parseOffsets_eq_ok_iff.mpr ?_, .inl rfl⟩
  rw [hcferom', htail']
  exact ⟨by omega, hcferom, rfl, by rw [← hcferom]; exact hbootfs, hrootfs⟩

/-! ### The walk -/

/-- A rename inside of the file writes name, checksum and, at its end, the tail. -/
theorem rename_eq {fp : List UInt8} {info : Info} {offset nsize : Nat} (behind : Nat → UInt8)
    (newname : List UInt8) (hoffs : parseOffsets fp = .ok info)
    (hin : offset + sizeofRawDirent + nsize ≤ fp.length) :
    rename fp info behind newname offset nsize =
      (renamedAt (fp.length - sizeofTail) fp info offset (argBytes newname behind nsize),
        none) := by
  have hbytes : (argBytes newname behind nsize).length = nsize := length_argBytes _ _ _
  have hlen : (withName fp offset (argBytes newname behind nsize)).length = fp.length :=
    length_withName (by rw [hbytes]; exact hin)
  obtain ⟨hle, hlt, hend⟩ := parseOffsets_bounds hoffs
  -- the checksum is computed over the renamed file, from the old offsets
  have hcrc := parseCrc32_from (show info.cferomOffset ≤ info.tailOffset by omega)
    (show info.tailOffset ≤ (withName fp offset (argBytes newname behind nsize)).length by
      rw [hlen]
      omega)
  rw [withName] at hcrc hlen
  rw [rename]
  simp only [hcrc, hlen]
  rfl

/-- A rename that reports success has found its dirent. -/
theorem bootfsMv_ok {fuel : Nat} {fp fp' : List UInt8} {info : Info} {behind : Nat → UInt8}
    {oldname newname : List UInt8}
    (h : bootfsMv fuel fp info behind oldname newname = some (fp', none)) :
    ∃ offset nsize, FirstMatch fp info oldname offset nsize ∧
      offset + sizeofRawDirent + nsize ≤ fp.length ∧
        fp' = (rename fp info behind newname offset nsize).1 := by
  rw [bootfsMv] at h
  split at h
  · cases h
  -- a good end comes from the turn that renames, and the turns before it passed other names
  · obtain ⟨offset, hreach, hturn⟩ := Loop.reaches_of_run h
    have hvisits := hreach.visits (mvTurn_next fp info behind oldname newname)
    rw [mvTurn] at hturn
    split at hturn
    · cases hturn
    · cases hturn
    · cases hturn
    · cases hturn
    · next next name hnode =>
      split at hturn
      · cases hturn
      · next hname =>
        rw [not_not] at hname
        refine ⟨offset, name.length, ⟨hvisits, next, name, hnode, hname, rfl⟩,
          readNode_dirent hnode, ?_⟩
        rw [Sum.inl.inj hturn]

/-- **A rename that reports success keeps the image exactly if there is no vendor tail behind its
tail and the parser finds the image with the new name**, as it does if name and tail are away from
what it looks at, or else by accident. -/
theorem bootfsMv_keepsImage_iff {fuel : Nat} {fp fp' : List UInt8} {info : Info}
    {behind : Nat → UInt8} {oldname newname : List UInt8} (hparse : parse fp = .ok info)
    (h : bootfsMv fuel fp info behind oldname newname = some (fp', none)) :
    ∃ offset nsize, FirstMatch fp info oldname offset nsize ∧
      (KeepsImage fp info offset nsize fp' ↔
        vendorTail fp = 0 ∧ FoundRenamed fp info offset (argBytes newname behind nsize) ∨
          vendorTail fp ≠ 0 ∧ VendorTailFits fp info offset (argBytes newname behind nsize)) ∧
      (vendorTail fp = 0 → NameAway fp info offset nsize →
        KeepsImage fp info offset nsize fp') := by
  obtain ⟨offset, nsize, hmatch, hin, rfl⟩ := bootfsMv_ok h
  have hoffs := (parse_ok_iff.mp hparse).1
  have hbytes : (argBytes newname behind nsize).length = nsize := length_argBytes _ _ _
  have hkeeps := keepsImage_end_iff (argBytes newname behind nsize) hoffs
    (by rw [hbytes]; exact hin)
  rw [hbytes] at hkeeps
  rw [rename_eq behind newname hoffs hin]
  refine ⟨offset, nsize, hmatch, hkeeps, fun hvendor haway => hkeeps.mpr (.inl ⟨hvendor, ?_⟩)⟩
  exact foundRenamed_of_away hoffs (by rwa [hbytes]) (by rwa [hbytes])

/-- A dirent with the name `a` -/
def direntNode : List UInt8 :=
  [0x85, 0x19, 0x01, 0xe0, 41, 0, 0, 0] ++ List.replicate 20 0 ++ [1, 0, 0, 0, 0, 0, 0, 0] ++
    [0xce, 0x51, 0xb5, 0x3a, 0x61]

/-- The vendor tail of Linksys -/
def linksysTail : List UInt8 :=
  [0x2e, 0x4c, 0x49, 0x4e, 0x4b, 0x53, 0x59, 0x53, 0x2e] ++ List.replicate 247 0

def blockInfo : Info where
  cferomOffset := 0
  bootfsOffset := 0
  paddingOffset := 0
  rootfsOffset := 0x20000
  tailOffset := 0x20400

/-- The node of the examples fits the first block. -/
private theorem length_direntNode : direntNode.length ≤ 0x20000 := by decide

/-- The image of the examples is accepted. -/
private theorem parse_direntNode {vendor : List UInt8}
    (h : vendorTail (blockImage direntNode vendor) = vendor.length) :
    parse (blockImage direntNode vendor) = .ok blockInfo :=
  parse_blockImage length_direntNode (by decide) h

/-- The node of the examples is a dirent for the name `a`. -/
private theorem readNode_direntNode (vendor : List UInt8) :
    readNode filenameMax (blockImage direntNode vendor) 0 = .dirent 44 [0x61] := by
  have hnode : readAt (blockImage direntNode vendor) 0 sizeofUnknownNode =
      readAt direntNode 0 sizeofUnknownNode := readAt_blockImage vendor (by decide)
  have hrest : readAt (blockImage direntNode vendor) (0 + sizeofUnknownNode)
      (sizeofRawDirent - sizeofUnknownNode) = readAt direntNode 12 28 :=
    readAt_blockImage vendor (by decide)
  have hname : readAt (blockImage direntNode vendor) (0 + sizeofRawDirent) 1 = [0x61] :=
    readAt_blockImage vendor (by decide)
  have hnsize : leWord 1 (readAt direntNode 0 sizeofUnknownNode ++ readAt direntNode 12 28) 28 =
      1 := by decide
  rw [readNode]
  simp only [hnode, hrest, hnsize, hname]
  decide

/-- It is the first with its name. -/
private theorem firstMatch_direntNode (vendor : List UInt8) :
    FirstMatch (blockImage direntNode vendor) blockInfo [0x61] 0 1 :=
  ⟨.refl, 44, [0x61], readNode_direntNode vendor, by decide, rfl⟩

/-- The rename of the examples reports success. -/
private theorem bootfsMv_direntNode {vendor : List UInt8}
    (h : vendorTail (blockImage direntNode vendor) = vendor.length) :
    bootfsMv 1 (blockImage direntNode vendor) blockInfo (fun _ => 0) [0x61] [0x62] =
      some (renamedAt ((blockImage direntNode vendor).length - sizeofTail)
        (blockImage direntNode vendor) blockInfo 0 [0x62], none) := by
  have hoffs := (parse_ok_iff.mp (parse_direntNode h)).1
  have hin := readNode_dirent (readNode_direntNode vendor)
  have hrename := rename_eq (fun _ => 0) [0x62] hoffs hin
  have hbytes : argBytes [0x62] (fun _ => 0) [(0x61 : UInt8)].length = [0x62] := by decide
  have hcstr : cstr [0x61] = [0x61] := by decide
  -- the first node is the entry asked for, so the loop ends there
  have hturn : mvTurn (blockImage direntNode vendor) blockInfo (fun _ => 0) [0x61] [0x62] 0 =
      .inl (renamedAt ((blockImage direntNode vendor).length - sizeofTail)
        (blockImage direntNode vendor) blockInfo 0 [0x62], none) := by
    rw [mvTurn, readNode_direntNode]
    simp only [hcstr, ne_eq, not_true_eq_false, if_false, hrename, hbytes]
  rw [bootfsMv, if_neg (by decide)]
  change Loop.run _ 1 0 = _
  rw [Loop.run, hturn]

/-- Without a vendor tail the rename keeps the image. -/
theorem bootfsMv_keepsImage_direntNode : ∃ offset nsize,
    FirstMatch (blockImage direntNode []) blockInfo [0x61] offset nsize ∧
      KeepsImage (blockImage direntNode []) blockInfo offset nsize
        (renamedAt ((blockImage direntNode []).length - sizeofTail)
          (blockImage direntNode []) blockInfo 0 [0x62]) := by
  have hvendor := vendorTail_blockImage_nil length_direntNode
  obtain ⟨offset, nsize, hmatch, -, hkeeps⟩ :=
    bootfsMv_keepsImage_iff (parse_direntNode hvendor) (bootfsMv_direntNode hvendor)
  refine ⟨offset, nsize, hmatch, hkeeps hvendor ?_⟩
  obtain ⟨rfl, rfl⟩ := hmatch.unique (firstMatch_direntNode [])
  have hlen : (blockImage direntNode []).length = 0x20414 := by
    rw [blockImage, List.append_nil, List.length_append, length_tail,
      length_blocks length_direntNode, sizeofTail]
  have hname : ∀ i, InName 0 1 i → i < 41 := fun i hi => hi.2
  -- the name ends at byte 41: away from the search positions and from the vendor magic
  constructor
  · decide
  · decide
  · intro i k hi _ hblock
    have hlt := hname i hi
    omega
  · intro i hi hmagic
    have hlt := hname i hi
    rw [hlen, sizeofLinksysTail] at hmagic
    omega

private theorem length_linksysTail : linksysTail.length = 256 := by
  rw [linksysTail, List.length_append, List.length_replicate]
  rfl

/-- It is found as one. -/
private theorem vendorTail_linksys :
    vendorTail (blockImage direntNode linksysTail) = linksysTail.length :=
  vendorTail_blockImage_linksys length_direntNode length_linksysTail (by decide)

/-- With the tail of Linksys, a rename overwrites the end of that one. -/
theorem linksys_rename_not_kept : ∃ fp info fp', parse fp = .ok info ∧
    bootfsMv 1 fp info (fun _ => 0) [0x61] [0x62] = some (fp', none) ∧
      ¬∃ offset nsize, FirstMatch fp info [0x61] offset nsize ∧
        KeepsImage fp info offset nsize fp' := by
  refine ⟨blockImage direntNode linksysTail, blockInfo, _, parse_direntNode vendorTail_linksys,
    bootfsMv_direntNode vendorTail_linksys, ?_⟩
  rintro ⟨offset, nsize, hmatch, -, hframe⟩
  obtain ⟨rfl, rfl⟩ := hmatch.unique (firstMatch_direntNode linksysTail)
  have hoffs := (parse_ok_iff.mp (parse_direntNode vendorTail_linksys)).1
  have hin : 0 + sizeofRawDirent + ([0x62] : List UInt8).length ≤
      (blockImage direntNode linksysTail).length := by
    have hname := readNode_dirent (readNode_direntNode linksysTail)
    exact hname
  have hblocks : (blocks direntNode).length = 0x20400 := length_blocks length_direntNode
  have himage : (blocks direntNode ++ tail (Crc.accumulate 0xffffffff (blocks direntNode))).length =
      0x20414 := by
    rw [List.length_append, length_tail, hblocks, sizeofTail]
  have hlen : (blockImage direntNode linksysTail).length = 0x20514 := by
    rw [blockImage, List.length_append, himage, length_linksysTail]
  -- The version in the tail is where the vendor tail has a zero.
  have hversion : (blockImage direntNode linksysTail)[0x20400 + 4]? = some 0x32 := by
    rw [blockImage, List.append_assoc, List.getElem?_append_right (by omega), hblocks,
      Nat.add_sub_cancel_left, List.getElem?_append_left (by rw [length_tail]; decide), tail]
    simp only [List.append_assoc]
    rw [List.getElem?_append_right (by rw [length_leBytes]), length_leBytes]
    rfl
  have hzero : (blockImage direntNode linksysTail)[0x20504]? = some 0 := by
    rw [blockImage, List.getElem?_append_right (by omega), himage]
    decide
  -- the frame says that the byte is kept, but the tail is written over it
  have hkept := hframe 0x20504 (by rw [InName, sizeofRawDirent]; omega)
    (by change ¬(0x20400 ≤ 0x20504 ∧ 0x20504 < 0x20404); omega)
  have hpos : (blockImage direntNode linksysTail).length - sizeofTail + 4 = 0x20504 := by
    rw [hlen, sizeofTail]
  rw [← hpos, getElem?_renamedAt_tail hoffs hin (by rw [hlen, sizeofTail]) (by decide),
    getElem?_newTail _ _ _ _ (by omega) (by decide), hpos, hzero] at hkept
  have htail : blockInfo.tailOffset = 0x20400 := rfl
  rw [htail, hversion] at hkept
  exact absurd hkept (by decide)

end HandsomeMod.Native.Bcm4908img
