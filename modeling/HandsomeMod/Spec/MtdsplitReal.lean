import HandsomeMod.Native.Mtdsplit

/-!
# The partitions of the firmware splitters

When the header scan stops at a header and no sum wraps, the kernel and the root filesystem that a
splitter finds are real partitions: both are non-empty, inside the device and apart from each other.
-/

namespace HandsomeMod.Native.Mtdsplit

open ForStd

/-- Two partitions of the device. -/
structure Real (mtd : MtdInfo) (p : Parts) : Prop where
  kernel_pos : 0 < p.kernel.size
  rootfs_pos : 0 < p.rootfs.size
  kernel_le : p.kernel.offset + p.kernel.size ≤ mtd.size
  rootfs_le : p.rootfs.offset + p.rootfs.size ≤ mtd.size
  apart : p.kernel.offset + p.kernel.size ≤ p.rootfs.offset ∨
    p.rootfs.offset + p.rootfs.size ≤ p.kernel.offset

variable {w : Nat} {e : Endian}

/-- Truncation to `size_t` does not go above the number. -/
private theorem sizeT_le (n : Nat) : sizeT w n ≤ n := Nat.mod_le _ _

/-- A number that fits is kept. -/
private theorem sizeT_eq {n : Nat} (h : n < 2 ^ w) : sizeT w n = n := Nat.mod_eq_of_lt h

/-- What was truncated fits. -/
private theorem sizeT_lt (n : Nat) : sizeT w n < 2 ^ w := Nat.mod_lt _ (Nat.two_pow_pos w)

/-- The difference to a smaller number is truncated as the number is. -/
private theorem sizeT_sub {n r : Nat} (h : r < sizeT w n) : sizeT w (n - r) = sizeT w n - r := by
  have hn : n - r = 2 ^ w * (n / 2 ^ w) + (sizeT w n - r) := by
    have hdiv := Nat.div_add_mod n (2 ^ w)
    rw [sizeT] at h ⊢
    omega
  have hlt : sizeT w n - r < 2 ^ w := Nat.lt_of_le_of_lt (Nat.sub_le _ _) (sizeT_lt n)
  rw [hn, sizeT, Nat.mul_add_mod, Nat.mod_eq_of_lt hlt]

/-! ### Reads -/

/-- What was read is what the flash holds. -/
private theorem mtdRead_ok {mtd : MtdInfo} {n offset len : Nat} {buf : List UInt8}
    (h : mtdRead mtd n offset len = .ok buf) :
    offset < mtd.size ∧ len ≤ mtd.size - offset ∧ buf = bytesAt mtd.flash offset len := by
  unfold mtdRead at h
  split at h
  · next hin =>
    split at h
    · cases h
    · exact ⟨hin.1, hin.2, (Except.ok.inj h).symm⟩
  · cases h

/-- A byte of what was read is that of the flash. -/
private theorem getD_read (m : Mem) {off len pos k n : Nat} (h : pos + n ≤ len) (hk : k < n) :
    (bytesAt m off len).getD (pos + k) 0 = m (off + pos + k) := by
  rw [getD_bytesAt m off (by omega), Nat.add_assoc]

/-- A big-endian field of what was read. -/
private theorem beField_bytesAt (m : Mem) (off : Nat) {len pos n : Nat} (h : pos + n ≤ len) :
    beField n (bytesAt m off len) pos = loadBE n fun k => m (off + pos + k) :=
  loadBE_congr fun _ hk => getD_read m h hk

/-- A little-endian word of what was read. -/
private theorem leField_bytesAt (m : Mem) (off : Nat) {len pos : Nat} (h : pos + 4 ≤ len) :
    leField (bytesAt m off len) pos = loadLE 4 fun k => m (off + pos + k) :=
  loadBE_congr fun _ hk => getD_read m h (by omega)

/-! ### Erase blocks -/

/-- The next erase block is computed without overflow. -/
def Steps (w : Nat) (mtd : MtdInfo) : Prop :=
  ∀ offset < mtd.size,
    mtdNextEb w mtd offset = offset / mtd.erasesize * mtd.erasesize + mtd.erasesize

/-- Small numbers are rounded down to a multiple of the erase size. -/
private theorem mtdRounddownToEb_eq {mtd : MtdInfo} {sz : Nat} (h : sz < 2 ^ 32) :
    mtdRounddownToEb sz mtd = sz / mtd.erasesize * mtd.erasesize := by
  have hle : sz / mtd.erasesize * mtd.erasesize ≤ sz := Nat.div_mul_le_self _ _
  have hdiv : sz / mtd.erasesize ≤ sz := Nat.div_le_self _ _
  unfold mtdRounddownToEb
  split
  · next hmod => exact (Nat.div_mul_cancel (Nat.dvd_of_mod_eq_zero hmod)).symm
  · rw [Nat.mod_eq_of_lt (show sz / mtd.erasesize < 2 ^ 32 by omega), Nat.mod_eq_of_lt (by omega)]

/-- A device of at most 4 GiB, less one erase block, has no overflow. -/
private theorem steps_of_le {mtd : MtdInfo} (hw : 32 ≤ w) (h : mtd.size + mtd.erasesize ≤ 2 ^ 32) :
    Steps w mtd := by
  intro offset hoffset
  have hpow : 2 ^ 32 ≤ 2 ^ w := Nat.pow_le_pow_right two_pos hw
  have hle : offset / mtd.erasesize * mtd.erasesize ≤ offset := Nat.div_mul_le_self _ _
  rw [mtdNextEb, mtdRounddownToEb_eq (by omega), sizeT_eq (by omega)]

/-- The next block is behind the position. -/
theorem Steps.lt {mtd : MtdInfo} (h : Steps w mtd) {offset : Nat} (hoffset : offset < mtd.size)
    (hpos : 0 < mtd.erasesize) : offset < mtdNextEb w mtd offset := by
  rw [h offset hoffset, ← Nat.succ_mul, Nat.mul_comm]
  exact Nat.lt_mul_div_succ offset hpos

/-- The next header position of a scan on block boundaries. -/
theorem Steps.aligned {mtd : MtdInfo} (h : Steps w mtd) {offset : Nat}
    (hoffset : offset < mtd.size) (hmod : offset % mtd.erasesize = 0) :
    sizeT w (offset + mtd.erasesize) = offset + mtd.erasesize := by
  have hnext := h offset hoffset
  rwa [mtdNextEb, mtdRounddownToEb, if_pos hmod,
    Nat.div_mul_cancel (Nat.dvd_of_mod_eq_zero hmod)] at hnext

/-! ### The root filesystem -/

section

variable {mtd : MtdInfo} {limit fuel n offset r : Nat} {type : PartType}

/-- A search that succeeds either ends at once or goes on at the next erase block. -/
private theorem find_cases (h : mtdFindRootfsFrom w e mtd limit (fuel + 1) n offset =
    some (.ok (r, type))) : offset < limit ∧
      ((mtdCheckRootfsMagic e mtd n offset = .ok type ∧ r = offset) ∨
        (0 < mtd.erasesize ∧ mtdFindRootfsFrom w e mtd limit fuel (n + 1)
          (mtdNextEb w mtd offset) = some (.ok (r, type)))) := by
  rw [mtdFindRootfsFrom] at h
  split at h
  · next hlt =>
    refine ⟨hlt, ?_⟩
    split at h
    · next t ht =>
      obtain ⟨rfl, rfl⟩ := Prod.mk.inj (Except.ok.inj (Option.some.inj h))
      exact .inl ⟨ht, rfl⟩
    -- no root file system here
    · split at h
      · cases h
      · next hne => exact .inr ⟨Nat.pos_of_ne_zero hne, h⟩
  · cases h

/-- The root filesystem starts in front of the limit. -/
private theorem find_lt (h : mtdFindRootfsFrom w e mtd limit fuel n offset = some (.ok (r, type))) :
    r < limit := by
  induction fuel generalizing n offset with
  | zero => cases h
  | succ fuel ih =>
    obtain ⟨hlt, ⟨-, rfl⟩ | ⟨-, hrest⟩⟩ := find_cases h
    · exact hlt
    · exact ih hrest

/-- The search goes forward. -/
private theorem le_find (hsteps : Steps w mtd) (hlimit : limit ≤ mtd.size)
    (h : mtdFindRootfsFrom w e mtd limit fuel n offset = some (.ok (r, type))) : offset ≤ r := by
  induction fuel generalizing n offset with
  | zero => cases h
  | succ fuel ih =>
    obtain ⟨hlt, ⟨-, rfl⟩ | ⟨hpos, hrest⟩⟩ := find_cases h
    · exact Nat.le_refl _
    · have hnext := hsteps.lt (show offset < mtd.size by omega) hpos
      have hle := ih hrest
      omega

/-- Without a root filesystem at its start the search ends at an erase block behind it. -/
private theorem nextEb_le_find (hsteps : Steps w mtd) (hlimit : limit ≤ mtd.size)
    (hno : ∀ t, mtdCheckRootfsMagic e mtd n offset ≠ .ok t)
    (h : mtdFindRootfsFrom w e mtd limit fuel n offset = some (.ok (r, type))) :
    mtdNextEb w mtd offset ≤ r ∧ 0 < mtd.erasesize ∧ offset < mtd.size := by
  cases fuel with
  | zero => cases h
  | succ fuel =>
    obtain ⟨hlt, ⟨hcheck, -⟩ | ⟨hpos, hrest⟩⟩ := find_cases h
    · exact absurd hcheck (hno type)
    · exact ⟨le_find hsteps hlimit hrest, hpos, by omega⟩

end

/-! ### uImage -/

namespace Uimage

variable {c : Config} {mtd : MtdInfo}

/-- A header that the scan accepts. -/
structure Accepted (w : Nat) (c : Config) (mtd : MtdInfo) (offset size : Nat) : Prop where
  magic : loadBE 4 (fun k => mtd.flash (offset + c.headerOffset.toNat + k)) = c.ihMagic.toNat
  part : c.headerOffset ≠ 0 → c.partMagic ≠ 0 →
    loadBE 4 (fun k => mtd.flash (offset + k)) = c.partMagic.toNat
  fits : sizeT w (offset + size) ≤ mtd.size

/-- A field behind a part of the buffer. -/
private theorem beField_drop (buf : List UInt8) (k : Nat) :
    beField 4 (buf.drop k) 0 = beField 4 buf k := by
  apply loadBE_congr
  intro i _
  simp [List.getD_eq_getElem?_getD, List.getElem?_drop]

/-- A header that passes the check is accepted. -/
private theorem accepted_of_check {n offset : Nat} (h : (check w c mtd n offset).1 = true) :
    Accepted w c mtd offset (check w c mtd n offset).2 := by
  unfold check at h ⊢
  split at h
  · cases h
  · next buf hread =>
    obtain ⟨-, -, rfl⟩ := mtdRead_ok hread
    split at h
    · cases h
    · next hpart =>
      simp only at h
      split at h
      · next hverify =>
        split at h
        · cases h
        · next hfits =>
          simp only [if_neg hpart, hverify, if_true, if_neg hfits]
          have hbuflen : c.headerOffset.toNat + 64 = buflen c := Nat.add_comm _ _
          -- the magic, the part number where there is one, and the size within the partition
          constructor
          · have hmagic := (of_decide_eq_true hverify).1
            rwa [beField_drop, beField_bytesAt _ _ (by omega)] at hmagic
          · intro hoffset hmagic
            have hword := not_and.mp (not_and.mp hpart hoffset) hmagic
            rwa [not_not, beField_bytesAt _ _ (by omega)] at hword
          · exact Nat.not_lt.mp hfits
      · cases h

/-- The scan ends behind the device, or at a header that it accepts. -/
theorem scan_cases {fuel : Nat} {s s' : Scan} (h : scan w c mtd fuel s = some s') :
    mtd.size ≤ s'.offset ∨ Accepted w c mtd s'.offset s'.uimageSize := by
  -- each turn starts on a block border
  induction fuel generalizing s with
  | zero => cases h
  | succ fuel ih =>
    rw [scan] at h
    split at h
    · simp only at h
      split at h
      · next hcheck =>
        rw [← Option.some.inj h]
        exact .inr (accepted_of_check hcheck)
      · exact ih h
    · next hend =>
      rw [← Option.some.inj h]
      exact .inl (Nat.not_lt.mp hend)

/-- The partitions behind a scan that stopped at a header. -/
theorem split_real {fuel : Nat} {s : Scan} {p : Parts}
    (h : split w e mtd fuel s = some (.ok p)) (hstop : s.offset < mtd.size)
    (hwrap : s.offset + s.uimageSize < 2 ^ w) (hacc : Accepted w c mtd s.offset s.uimageSize)
    (hsteps : Steps w mtd) : Real mtd p ∧ p.kernel.offset = s.offset := by
  have hfits := hacc.fits
  rw [sizeT_eq hwrap] at hfits
  -- the image is in front of the root filesystem, or behind it
  unfold split at h
  split at h
  · cases h
  · next hsize =>
    simp only at h
    split at h
    · next h0 =>
      -- The kernel is in front, and the root filesystem is found behind the image.
      obtain ⟨res, hfind, hres⟩ := Option.map_eq_some_iff.mp h
      cases res with
      | error err => cases hres
      | ok found =>
        obtain ⟨r, type⟩ := found
        simp only at hres
        split at hres
        · cases hres
        · next hroot =>
          have hlimit := find_lt hfind
          have hfrom := le_find hsteps (sizeT_le _) hfind
          have hle := sizeT_le (w := w) mtd.size
          have hlt := sizeT_lt (w := w) mtd.size
          have hrootle := sizeT_le (w := w) (mtd.size - r)
          have hkernel : sizeT w (r + 2 ^ w - s.offset) = r := by
            rw [h0, Nat.sub_zero, sizeT, Nat.add_mod_right, Nat.mod_eq_of_lt (by omega)]
          rw [sizeT_eq hwrap] at hfrom
          rw [← Except.ok.inj hres, hkernel]
          refine ⟨⟨?_, Nat.pos_of_ne_zero hroot, ?_, ?_, .inl ?_⟩, rfl⟩
          · show 0 < r
            omega
          · show s.offset + r ≤ mtd.size
            omega
          · show r + sizeT w (mtd.size - r) ≤ mtd.size
            omega
          · show s.offset + r ≤ r
            omega
    · next h0 =>
      -- The root filesystem is at the start, up to the kernel.
      split at h
      · cases h
      · rw [← Except.ok.inj (Option.some.inj h)]
        refine ⟨⟨Nat.pos_of_ne_zero hsize, Nat.pos_of_ne_zero h0, hfits, ?_, .inr ?_⟩, rfl⟩
        · show 0 + s.offset ≤ mtd.size
          omega
        · show 0 + s.offset ≤ s.offset
          omega

end Uimage

/-! ### FIT -/

namespace Fit

variable {mtd : MtdInfo}

/-- The scan ends where no header fits, or at a header with the magic number; it stays on block
boundaries. -/
theorem scan_cases (hsteps : Steps w mtd) {fuel : Nat} {s s' : Scan}
    (hs : s.offset % mtd.erasesize = 0) (h : scan w mtd fuel s = some (.ok s')) :
    s'.offset % mtd.erasesize = 0 ∧ (mtd.size < sizeT w (s'.offset + hdrLen) ∨
      (loadBE 4 (fun k => mtd.flash (s'.offset + k)) = ofDtHeader ∧ s'.offset < mtd.size)) := by
  -- a failed read and a foreign magic both move on to the next block
  induction fuel generalizing s with
  | zero => cases h
  | succ fuel ih =>
    rw [scan] at h
    split at h
    · split at h
      · cases h
      · next hdr hread =>
        obtain ⟨hlt, -, hhdr⟩ := mtdRead_ok hread
        split at h
        · apply ih _ h
          show sizeT w (s.offset + mtd.erasesize) % mtd.erasesize = 0
          rw [hsteps.aligned hlt hs, Nat.add_mod_right, hs]
        · next hmagic =>
          rw [← Except.ok.inj (Option.some.inj h)]
          refine ⟨hs, .inr ⟨?_, hlt⟩⟩
          rwa [hhdr, not_not, beField_bytesAt _ _ (by decide)] at hmagic
    · next hend =>
      rw [← Except.ok.inj (Option.some.inj h)]
      exact ⟨hs, .inl (Nat.not_le.mp hend)⟩

/-- The partitions behind a scan that stopped at a header: the root filesystem is in a later erase
block than the end of the image. -/
theorem split_real {fuel : Nat} {s : Scan} {p : Parts}
    (h : split w e mtd fuel s = some (.ok p)) (hs : s.offset % mtd.erasesize = 0)
    (hwrap : s.offset + fitSize s.hdr < 2 ^ w) (hsteps : Steps w mtd)
    (hno : ∀ t, mtdCheckRootfsMagic e mtd s.reads (s.offset + fitSize s.hdr) ≠ .ok t) :
    Real mtd p ∧ p.kernel.offset = s.offset := by
  unfold split at h
  split at h
  · cases h
  · obtain ⟨res, hfind, hres⟩ := Option.bind_eq_some_iff.mp h
    cases res with
    | error err => cases hres
    | ok found =>
      obtain ⟨r, type⟩ := found
      simp only at hres
      split at hres
      · cases hres
      · rw [sizeT_eq hwrap] at hfind
        have hlimit := find_lt hfind
        obtain ⟨hnext, hpos, hfrom⟩ := nextEb_le_find hsteps (sizeT_le _) hno hfind
        have hle := sizeT_le (w := w) mtd.size
        have hsmall : fitSize s.hdr < 2 ^ 32 := beField_lt 4 s.hdr 4
        -- The image ends in the block in which its size, rounded down, ends.
        have hround : mtdRounddownToEb (fitSize s.hdr) mtd =
            fitSize s.hdr / mtd.erasesize * mtd.erasesize := mtdRounddownToEb_eq hsmall
        have hend : mtdNextEb w mtd (s.offset + fitSize s.hdr) =
            s.offset + (mtdRounddownToEb (fitSize s.hdr) mtd + mtd.erasesize) := by
          have hdiv : (s.offset + fitSize s.hdr) / mtd.erasesize =
              s.offset / mtd.erasesize + fitSize s.hdr / mtd.erasesize :=
            Nat.add_div_of_dvd_right (Nat.dvd_of_mod_eq_zero hs)
          rw [hsteps _ hfrom, hround, hdiv, Nat.add_mul,
            Nat.div_mul_cancel (Nat.dvd_of_mod_eq_zero hs), Nat.add_assoc]
        -- the filesystem is looked for from the next block on
        rw [hend] at hnext
        have hroot : sizeT w (mtd.size - r) ≠ 0 := by
          rw [sizeT_sub hlimit]
          omega
        rw [← Except.ok.inj (Option.some.inj hres)]
        have hrootle := sizeT_le (w := w) (mtd.size - r)
        refine ⟨⟨?_, Nat.pos_of_ne_zero hroot, ?_, ?_, .inl hnext⟩, rfl⟩
        · show 0 < mtdRounddownToEb (fitSize s.hdr) mtd + mtd.erasesize
          omega
        · show s.offset + (mtdRounddownToEb (fitSize s.hdr) mtd + mtd.erasesize) ≤ mtd.size
          omega
        · show r + sizeT w (mtd.size - r) ≤ mtd.size
          omega

end Fit

/-! ### TRX -/

namespace Trx

variable {mtd : MtdInfo}

/-- The scan ends behind the device, or at a header with the magic number. -/
theorem scan_cases {fuel : Nat} {s s' : Scan} (h : scan w mtd fuel s = some s') :
    mtd.size ≤ s'.offset ∨ loadLE 4 (fun k => mtd.flash (s'.offset + k)) = trxMagic := by
  induction fuel generalizing s with
  | zero => cases h
  | succ fuel ih =>
    rw [scan] at h
    split at h
    · simp only at h
      split at h
      · exact ih h
      · next hdr hread =>
        obtain ⟨-, -, hhdr⟩ := mtdRead_ok hread
        split at h
        · exact ih h
        · next hmagic =>
          split at h
          · exact ih h
          · rw [← Option.some.inj h]
            refine .inr ?_
            rwa [hhdr, not_not, leField_bytesAt _ _ (by decide)] at hmagic
    -- the scan has reached the end of the device
    · next hend =>
      rw [← Option.some.inj h]
      exact .inl (Nat.not_lt.mp hend)

/-- The partitions that a header names in order. -/
theorem split_real {s : Scan} {p : Parts} (h : split w e mtd s = .ok p)
    (horder : partOffset w e s 0 < partOffset w e s 1) (hin : partOffset w e s 1 < mtd.size) :
    Real mtd p ∧ p.kernel.offset = partOffset w e s 0 := by
  have hsize := mtd.size_lt
  unfold split at h
  split at h
  · cases h
  · simp only at h
    split at h
    · cases h
    · next hroot =>
      have hlt : partOffset w e s 1 < 2 ^ w := sizeT_lt _
      -- the rootfs starts on the device, so its size does not wrap either
      have hroom : (mtd.size + 2 ^ 64 - partOffset w e s 1) % 2 ^ 64 =
          mtd.size - partOffset w e s 1 := by
        rw [show mtd.size + 2 ^ 64 - partOffset w e s 1 =
          mtd.size - partOffset w e s 1 + 2 ^ 64 by omega, Nat.add_mod_right,
          Nat.mod_eq_of_lt (by omega)]
      -- the partition offsets are ordered, so neither difference wraps
      have hkernel : sizeT w (partOffset w e s 1 + 2 ^ w - partOffset w e s 0) =
          partOffset w e s 1 - partOffset w e s 0 := by
        rw [show partOffset w e s 1 + 2 ^ w - partOffset w e s 0 =
          partOffset w e s 1 - partOffset w e s 0 + 2 ^ w by omega, sizeT, Nat.add_mod_right,
          Nat.mod_eq_of_lt (by omega)]
      rw [hroom] at h hroot
      rw [hkernel] at h
      have hrootle := sizeT_le (w := w) (mtd.size - partOffset w e s 1)
      rw [← Except.ok.inj h]
      refine ⟨⟨?_, Nat.pos_of_ne_zero hroot, ?_, ?_, .inl ?_⟩, rfl⟩
      · show 0 < partOffset w e s 1 - partOffset w e s 0
        omega
      · show partOffset w e s 0 + (partOffset w e s 1 - partOffset w e s 0) ≤ mtd.size
        omega
      · show partOffset w e s 1 + sizeT w (mtd.size - partOffset w e s 1) ≤ mtd.size
        omega
      · show partOffset w e s 0 + (partOffset w e s 1 - partOffset w e s 0) ≤
          partOffset w e s 1
        omega

end Trx

/-! ### All splitters -/

/-- **A splitter that returns 2 has found two partitions of the device.** For uImage and FIT the
kernel starts at the header whose magic number was checked, less `header_offset`; for TRX it starts
where the header says. The scan has to stop at a header, the sums have to fit `size_t`, no root
filesystem may start right at the end of a FIT image, and the offsets of a TRX header have to be in
order and inside the device. -/
theorem splitters_real (c : Uimage.Config) (mtd : MtdInfo) (hdr : List UInt8) (fuel : Nat)
    (p : Parts) :
    (∀ s, Uimage.mtdsplitParseUimage w e c mtd fuel = some (.ok p) →
      Uimage.scan w c mtd fuel ⟨0, 0, 0⟩ = some s → s.offset < mtd.size →
        s.offset + s.uimageSize < 2 ^ w → Steps w mtd →
          Real mtd p ∧ Uimage.Accepted w c mtd p.kernel.offset s.uimageSize) ∧
    (∀ s, Fit.mtdsplitFitParse w e mtd hdr fuel = some (.ok p) →
      Fit.scan w mtd fuel ⟨0, 0, hdr⟩ = some (.ok s) →
        sizeT w (s.offset + Fit.hdrLen) ≤ mtd.size → s.offset + Fit.fitSize s.hdr < 2 ^ w →
          Steps w mtd →
            (∀ t, mtdCheckRootfsMagic e mtd s.reads (s.offset + Fit.fitSize s.hdr) ≠ .ok t) →
              Real mtd p ∧
                loadBE 4 (fun k => mtd.flash (p.kernel.offset + k)) = Fit.ofDtHeader) ∧
    ∀ s, Trx.mtdsplitParseTrx w e mtd hdr fuel = some (.ok p) →
      Trx.scan w mtd fuel ⟨0, 0, hdr, 0⟩ = some s → s.offset < mtd.size →
        Trx.partOffset w e s 0 < Trx.partOffset w e s 1 → Trx.partOffset w e s 1 < mtd.size →
          Real mtd p ∧ p.kernel.offset = Trx.partOffset w e s 0 ∧
            loadLE 4 (fun k => mtd.flash (s.offset + k)) = Trx.trxMagic := by
  -- uImage, FIT and TRX: what the scan found is what is split
  refine ⟨?_, ?_, ?_⟩
  · intro s h hscan hstop hwrap hsteps
    rw [Uimage.mtdsplitParseUimage] at h
    split at h
    · cases h
    · rw [hscan] at h
      rcases Uimage.scan_cases hscan with hend | hacc
      · omega
      · obtain ⟨hreal, hoffset⟩ := Uimage.split_real h hstop hwrap hacc hsteps
        rw [hoffset]
        exact ⟨hreal, hacc⟩
  · intro s h hscan hstop hwrap hsteps hno
    rw [Fit.mtdsplitFitParse, hscan] at h
    obtain ⟨hmod, hend | ⟨hmagic, -⟩⟩ := Fit.scan_cases hsteps (Nat.zero_mod _) hscan
    · omega
    · obtain ⟨hreal, hoffset⟩ := Fit.split_real h hmod hwrap hsteps hno
      rw [hoffset]
      exact ⟨hreal, hmagic⟩
  · intro s h hscan hstop horder hin
    rw [Trx.mtdsplitParseTrx, hscan] at h
    rcases Trx.scan_cases hscan with hend | hmagic
    · omega
    · obtain ⟨hreal, hoffset⟩ := Trx.split_real (Option.some.inj h) horder hin
      exact ⟨hreal, hoffset, hmagic⟩

/-! ### Samples -/

/-- Erased flash with some bytes at some positions. -/
def sampleFlash (pieces : List (Nat × List UInt8)) : Mem := fun i =>
  (pieces.findSome? fun x => if x.1 ≤ i then x.2[i - x.1]? else none).getD 0xff

private theorem sample_size_lt : 256 < 2 ^ 64 := by decide

/-- Four erase blocks of 64 bytes. -/
def sampleMtd (pieces : List (Nat × List UInt8)) : MtdInfo where
  size := 256
  erasesize := 64
  flash := sampleFlash pieces
  fails := fun _ => false
  size_lt := sample_size_lt

/-- `hsqs` -/
def sampleSquashfs : List UInt8 := [0x68, 0x73, 0x71, 0x73]

/-- The header of a uImage of a kernel for Linux with `size` bytes of data. -/
def sampleUimage (size : UInt8) : List UInt8 :=
  [0x27, 0x05, 0x19, 0x56, 0, 0, 0, 0, 0, 0, 0, 0, 0, 0, 0, size] ++ List.replicate 12 0 ++
    [5, 0, 2, 0] ++ List.replicate 32 0

/-- The header of a FIT image of `size` bytes. -/
def sampleFit (size : UInt8) : List UInt8 :=
  [0xd0, 0x0d, 0xfe, 0xed, 0, 0, 0, size] ++ List.replicate 32 0

/-- The header of a TRX image of 128 bytes, the kernel right behind the header, the root filesystem
in the next block. -/
def sampleTrx : List UInt8 :=
  [0x48, 0x44, 0x52, 0x30, 128, 0, 0, 0] ++ List.replicate 8 0 ++
    [32, 0, 0, 0, 64, 0, 0, 0] ++ List.replicate 8 0

/-- The partitions of a sample. -/
def sampleParts (kernelOffset kernelSize rootfsOffset rootfsSize : Nat) : Parts where
  kernel := { name := kernelPartName, offset := kernelOffset, size := kernelSize }
  rootfs := { name := rootfsPartName, offset := rootfsOffset, size := rootfsSize }

/-- The blocks of the examples follow one another. -/
private theorem sample_steps (pieces : List (Nat × List UInt8)) : Steps 64 (sampleMtd pieces) :=
  steps_of_le (by decide) (show 256 + 64 ≤ 2 ^ 32 by decide)

/-- No root filesystem starts right at the end of the FIT image of the examples. -/
private theorem sample_no_rootfs (t : PartType) : mtdCheckRootfsMagic .little
    (sampleMtd [(0, sampleFit 100), (128, sampleSquashfs)]) 1 (0 + Fit.fitSize (sampleFit 100)) ≠
      .ok t := by
  have hcheck : mtdCheckRootfsMagic .little
      (sampleMtd [(0, sampleFit 100), (128, sampleSquashfs)]) 1
      (0 + Fit.fitSize (sampleFit 100)) = .error .einval := by
    decide
  rw [hcheck]
  exact fun h => by cases h

/-- An image for each of the three splitters. -/
theorem splitters_real_sample :
    Real (sampleMtd [(0, sampleUimage 64), (128, sampleSquashfs)]) (sampleParts 0 128 128 128) ∧
      Real (sampleMtd [(0, sampleFit 100), (128, sampleSquashfs)]) (sampleParts 0 128 128 128) ∧
      Real (sampleMtd [(0, sampleTrx)]) (sampleParts 32 32 64 192) := by
  refine ⟨?_, ?_, ?_⟩
  · exact ((splitters_real (w := 64) (e := .little) (Uimage.uimageParseDt none) _ [] 10 _).1
      ⟨1, 0, 128⟩ (by decide) (by decide) (by decide) (by decide)
      (sample_steps _)).1
  · exact ((splitters_real (w := 64) (e := .little) (Uimage.uimageParseDt none) _ [] 10 _).2.1
      ⟨1, 0, sampleFit 100⟩ (by decide) (by decide) (by decide) (by decide)
      (sample_steps _) sample_no_rootfs).1
  · exact ((splitters_real (w := 64) (e := .little) (Uimage.uimageParseDt none) _ [] 10 _).2.2
      ⟨1, 0, sampleTrx, 128⟩ (by decide) (by decide) (by decide)
      (by decide) (by decide)).1

/-- A TRX kernel does not start at the magic number. A FIT image of whole erase blocks overlaps the
root filesystem behind it. A uImage header that is too large, in the last block, leaves a kernel
behind the device. -/
theorem splitters_not_real :
    (∃ mtd p, Trx.mtdsplitParseTrx 64 .little mtd [] 10 = some (.ok p) ∧
      loadLE 4 (fun k => mtd.flash (p.kernel.offset + k)) ≠ Trx.trxMagic) ∧
    (∃ mtd p, Fit.mtdsplitFitParse 64 .little mtd [] 10 = some (.ok p) ∧ ¬ Real mtd p) ∧
    ∃ mtd p, Uimage.mtdsplitParseUimage 64 .little (Uimage.uimageParseDt none) mtd 10 =
      some (.ok p) ∧ ¬ Real mtd p := by
  refine ⟨?_, ?_, ?_⟩
  · exact ⟨sampleMtd [(0, sampleTrx)], sampleParts 32 32 64 192, by decide,
      by decide⟩
  · refine ⟨sampleMtd [(0, sampleFit 64), (64, sampleSquashfs)], sampleParts 0 128 64 192,
      by decide, fun h => ?_⟩
    exact absurd h.apart (by decide)
  · refine ⟨sampleMtd [(0, sampleSquashfs), (192, sampleUimage 64)],
      sampleParts 256 128 0 256, by decide, fun h => ?_⟩
    exact absurd h.kernel_le (by decide)

end HandsomeMod.Native.Mtdsplit
