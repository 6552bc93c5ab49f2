import HandsomeMod.Spec.BcmWfiBounds

/-!
# When a splitter hands over its table

Without a valid image in the active half the splitters set up a table of the two halves, and return
the error of `parse_bcm_wfi` with it. `HasImage` is the condition under which the number that they
return is that of the table.
-/

namespace HandsomeMod.Native.BcmWfi

open ForStd MtdCore Fueled

/-! ### An image -/

/-- The UBI magic can be read at an offset, with the read of number `n`. -/
def HasUbi (mtd : MtdInfo) (n offs : Nat) : Prop :=
  ∃ magic, mtdRead mtd n offs 4 = .ok magic ∧ magic.length = 4 ∧ beField 4 magic 0 = ubiMagic

/-- The first block with the UBI magic from `offs` on is at `rootfsOff`, in front of `stop`. -/
def UbiAt (mtd : MtdInfo) (offs stop reads rootfsOff : Nat) : Prop :=
  ∃ j, rootfsOff = offs + j * mtd.erasesize.toNat ∧ rootfsOff < stop ∧
    HasUbi mtd (reads + j) rootfsOff ∧
    ∀ i < j, ¬HasUbi mtd (reads + i) (offs + i * mtd.erasesize.toNat)

variable (s : Setup)

/-- The search for the kernel begins at `start`, behind the `cferam` where there has to be one. -/
def KernelStart (cfePart : Bool) (off size reads : Nat) (cfeOff : Option Nat)
    (start reads' : Nat) : Prop :=
  if cfePart then
    ∃ found file, Gives ((s.search cferamName off size false false).find off reads) found ∧
      found.res = .ok file ∧ cfeOff = some file.offs ∧
      start = file.offs + s.master.erasesize.toNat ∧ reads' = found.reads
  else cfeOff = none ∧ start = off ∧ reads' = reads

/-- A half holds an image: a `cferam`, where there has to be one, a kernel behind it, and a UBI
behind that. -/
def Image (cfePart : Bool) (off size reads : Nat) (cfeOff : Option Nat)
    (kernelOff rootfsOff : Nat) : Prop :=
  ∃ start reads' found file, KernelStart s cfePart off size reads cfeOff start reads' ∧
    Gives ((s.search kernelName start (size - (start - off)) false false).find start reads')
      found ∧ found.res = .ok file ∧ kernelOff = file.offs ∧
    UbiAt s.master (kernelOff + s.master.erasesize.toNat)
      (kernelOff + s.master.erasesize.toNat +
        (size - (kernelOff + s.master.erasesize.toNat - off))) found.reads rootfsOff

/-- The active half holds an image, with the reads from number `reads` on. -/
def HasImage (cfePart first : Bool) (reads : Nat) : Prop :=
  ∃ cfeOff kernelOff rootfsOff,
    Image s cfePart (active s first).offset (active s first).size reads cfeOff kernelOff rootfsOff

/-! ### The property -/

/-- The number of entries is returned, or an error without a table. -/
def Counted (r : Parsed) : Prop :=
  match r.pparts with
  | none => r.ret < 0
  | some parts => r.ret = parts.length

/-- The table of an image: the kernel and the UBI tile the firmware, which is in the active half, and
the inactive half is a whole partition. -/
structure IsImageTable (first : Bool) (parts : List MtdPartition) : Prop where
  tiles : ∃ firmware ∈ parts, ∃ kernel ∈ parts, ∃ ubi ∈ parts,
    firmware.name = "firmware" ∧ kernel.name = "kernel" ∧ ubi.name = "ubi" ∧
    kernel.offset = firmware.offset ∧ ubi.offset = kernel.offset + kernel.size ∧
    ubi.offset + ubi.size = firmware.offset + firmware.size ∧
    (active s first).offset ≤ firmware.offset ∧
    firmware.offset + firmware.size ≤ (active s first).offset + (active s first).size
  other : inactive s first ∈ parts

/-- A splitter hands over its table, where `Chooses` tells which half is the active one. -/
structure HandsOver (cfePart : Bool) (Chooses : Bool → Nat → Prop) (r : Parsed) : Prop where
  counted : Counted r
  inside : ∀ parts, r.pparts = some parts → ∀ p ∈ parts,
    0 < p.size ∧ p.offset + p.size ≤ s.master.size
  image : ∀ first reads, Chooses first reads → HasImage s cfePart first reads →
    ∀ parts, r.pparts = some parts → IsImageTable s first parts
  noImage : ∀ first reads, Chooses first reads → ¬HasImage s cfePart first reads →
    r.pparts = some [img1 s, img2 s]

/-- The boot flags in the names of the `cferam` of both images choose the first one, or the second
one. -/
def CfeChooses (first : Bool) (reads : Nat) : Prop :=
  s.memory.buf = true ∧ ∃ cfe1 cfe2 bf1 bf2,
    Gives ((cferamSearch s (img1 s) s.memory.cfe1Name).find (img1 s).offset 0) cfe1 ∧
    Gives ((cferamSearch s (img2 s) s.memory.cfe2Name).find (img2 s).offset cfe1.reads) cfe2 ∧
    cferamBootflag cfe1 = .ok bf1 ∧ cferamBootflag cfe2 = .ok bf2 ∧
    first = decide (bf2 ≤ bf1) ∧ reads = cfe2.reads

/-- The boot flags on the two devices choose the first image, or the second one. -/
def SercommChooses (mtdBf1 mtdBf2 : Option MtdInfo) (first : Bool) (reads : Nat) : Prop :=
  s.memory.buf = true ∧ ∃ dev1 dev2 bf1 bf2, mtdBf1 = some dev1 ∧ mtdBf2 = some dev2 ∧
    Gives (sercommBootflagValue dev1 s.master.erasesize.toNat) bf1 ∧
    Gives (sercommBootflagValue dev2 s.master.erasesize.toNat) bf2 ∧
    first = sercommFirst bf1 bf2 ∧ reads = 0

/-- `mtdsplit_parse_bcm_wfi_split` ends, and hands over its table. -/
def BcmHandsOver : Prop :=
  ∃ r, Gives (mtdsplitParseBcmWfiSplit s) r ∧ HandsOver s true (CfeChooses s) r

/-- `mtdsplit_parse_ser_wfi` ends, and hands over its table. -/
def SerHandsOver (mtdBf1 mtdBf2 : Option MtdInfo) : Prop :=
  ∃ r, Gives (mtdsplitParseSerWfi s mtdBf1 mtdBf2) r ∧
    HandsOver s false (SercommChooses s mtdBf1 mtdBf2) r

variable {s}

/-! ### The searches of an image -/

/-- The search for a file does not depend on the fuel. -/
private theorem find_stable (a : Search) (offs reads : Nat) : Stable (a.find offs reads) :=
  fun _ _ _ hle h => Loop.run_mono hle h

/-- Nor does the search for UBI. -/
private theorem ubifsFind_stable (mtd : MtdInfo) (offs size reads : Nat) :
    Stable (ubifsFind mtd offs size reads) :=
  stable_run _ _

/-- Nor does the search for the boot flag. -/
private theorem sercommBootflagValue_stable (mtd : MtdInfo) (bufLen : Nat) :
    Stable (sercommBootflagValue mtd bufLen) :=
  stable_run _ _

/-- A block with the magic of UBI ends the search. -/
private theorem ubifsTurn_hit {mtd : MtdInfo} {stop : Nat} {c : BlockScan} (hlt : c.offs < stop)
    (h : HasUbi mtd c.reads c.offs) : ubifsTurn mtd stop c = .inl (.ok (.ok c.offs)) := by
  obtain ⟨magic, hread, hlen, hmagic⟩ := h
  rw [ubifsTurn, if_pos hlt, hread]
  simp only
  rw [if_neg (by omega), if_pos hmagic]

/-- Another block is passed. -/
private theorem ubifsTurn_miss {mtd : MtdInfo} {stop : Nat} {c : BlockScan} (hlt : c.offs < stop)
    (h : ¬HasUbi mtd c.reads c.offs) : ubifsTurn mtd stop c = .inr (nextScan mtd c) := by
  rw [ubifsTurn, if_pos hlt]
  cases hread : mtdRead mtd c.reads c.offs 4 with
  | error rc => rfl
  | ok magic =>
    simp only
    split
    · rfl
    · next hlen =>
      rw [if_neg fun hmagic => h ⟨magic, hread, not_not.mp hlen, hmagic⟩]

/-- Behind the last block there is no UBI. -/
private theorem ubifsTurn_end {mtd : MtdInfo} {stop : Nat} {c : BlockScan} (hle : stop ≤ c.offs) :
    ubifsTurn mtd stop c = .inl (.ok (.error .enoent)) := by
  rw [ubifsTurn, if_neg (by omega)]

/-- A block from the next one on. -/
private theorem nextScan_offs (mtd : MtdInfo) (c : BlockScan) (i : Nat) :
    (nextScan mtd c).offs + i * mtd.erasesize.toNat =
      c.offs + (i + 1) * mtd.erasesize.toNat := by
  simp only [nextScan]
  ring

/-- Each block is one read. -/
private theorem nextScan_reads (mtd : MtdInfo) (c : BlockScan) (i : Nat) :
    (nextScan mtd c).reads + i = c.reads + (i + 1) := by
  simp only [nextScan]
  omega

/-- Where the search ends is the first block with UBI. -/
private theorem ubiAt_of_run {mtd : MtdInfo} {stop fuel rootfsOff : Nat} {c : BlockScan}
    (h : Loop.run (ubifsTurn mtd stop) fuel c = some (.ok (.ok rootfsOff))) :
    UbiAt mtd c.offs stop c.reads rootfsOff := by
  -- one block each turn, up to the first with a header
  induction fuel generalizing c with
  | zero => cases h
  | succ fuel ih =>
    rw [Loop.run] at h
    by_cases hlt : c.offs < stop
    swap
    · rw [ubifsTurn_end (by omega)] at h
      cases h
    by_cases hubi : HasUbi mtd c.reads c.offs
    · rw [ubifsTurn_hit hlt hubi] at h
      cases h
      exact ⟨0, by simp, hlt, hubi, fun i hi => absurd hi (by omega)⟩
    · rw [ubifsTurn_miss hlt hubi] at h
      obtain ⟨j, hj, hstop, hhas, hnone⟩ := ih h
      rw [nextScan_reads] at hhas
      refine ⟨j + 1, by rw [hj, nextScan_offs], hstop, hhas, fun i hi => ?_⟩
      cases i with
      | zero => simpa using hubi
      | succ i =>
        have hmiss := hnone i (by omega)
        rwa [nextScan_reads, nextScan_offs] at hmiss

/-- The first block with UBI is where the search ends. -/
theorem run_of_ubiAt {mtd : MtdInfo} {stop rootfsOff : Nat} {c : BlockScan}
    (h : UbiAt mtd c.offs stop c.reads rootfsOff) :
    ∃ fuel, Loop.run (ubifsTurn mtd stop) fuel c = some (.ok (.ok rootfsOff)) := by
  obtain ⟨j, hj, hstop, hhas, hnone⟩ := h
  induction j generalizing c with
  -- the block searched for is the first one
  | zero =>
    have hoffs : rootfsOff = c.offs := by simpa using hj
    subst hoffs
    exact ⟨1, by rw [Loop.run, ubifsTurn_hit hstop hhas]⟩
  -- the first block has no UBI header, so the search goes on behind it
  | succ j ih =>
    have hmiss : ¬HasUbi mtd c.reads c.offs := by simpa using hnone 0 (by omega)
    have hlt : c.offs < stop := by
      rw [hj] at hstop
      exact Nat.lt_of_le_of_lt (Nat.le_add_right _ _) hstop
    obtain ⟨fuel, hrun⟩ := ih (c := nextScan mtd c) (by rw [hj, nextScan_offs])
      (by rw [nextScan_reads]; exact hhas) fun i hi => by
        rw [nextScan_reads, nextScan_offs]
        exact hnone (i + 1) (by omega)
    exact ⟨fuel + 1, by rw [Loop.run, ubifsTurn_miss hlt hmiss]; exact hrun⟩

/-- `ubifs_find` finds the first block with the magic. -/
private theorem gives_ubifsFind_iff {mtd : MtdInfo} {offs size reads rootfsOff : Nat} :
    Gives (ubifsFind mtd offs size reads) (.ok rootfsOff) ↔
      UbiAt mtd offs (offs + size) reads rootfsOff := by
  constructor
  · rintro ⟨fuel, hrun⟩
    exact ubiAt_of_run hrun
  · exact fun h => run_of_ubiAt (c := { offs := offs, reads := reads }) h

/-! ### What `parse_bcm_wfi` leaves -/

variable {off size reads kernelOff rootfsOff : Nat} {cfeOff : Option Nat} {p : Parsed}

/-- An error, and no table. -/
def IsError (p : Parsed) : Prop := p.ret < 0 ∧ p.pparts = none

/-- The last part of `parse_bcm_wfi` gives what the search for UBI makes of it. -/
private theorem gives_parseUbi_iff :
    Gives (parseUbi s off size cfeOff kernelOff reads) p ↔
      ∃ found, Gives (ubifsFind s.master (kernelOff + s.master.erasesize.toNat)
        (size - (kernelOff + s.master.erasesize.toNat - off)) reads) found ∧
        wfiParsed s off size cfeOff kernelOff found = p := by
  refine (gives_bind_iff (ubifsFind_stable _ _ _ _) fun found => stable_const _).trans ?_
  simp only [gives_pure_iff]

/-- It does not depend on the fuel. -/
private theorem parseUbi_stable (s : Setup) (off size : Nat) (cfeOff : Option Nat)
    (kernelOff reads : Nat) :
    Stable (parseUbi s off size cfeOff kernelOff reads) :=
  (ubifsFind_stable _ _ _ _).bind fun _ => stable_const _

/-- From the kernel on `parse_bcm_wfi` gives what the search for it makes of it. -/
private theorem gives_parseKernel_iff :
    Gives (parseKernel s off size cfeOff kernelOff reads) p ↔
      ∃ found, Gives ((s.search kernelName kernelOff (size - (kernelOff - off)) false false).find
        kernelOff reads) found ∧
        match found.res with
        | .error rc => { ret := rc.toRet, pparts := none } = p
        | .ok file => Gives (parseUbi s off size cfeOff file.offs found.reads) p := by
  refine (gives_bind_iff (find_stable _ _ _) fun found => ?_).trans ?_
  · cases found.res with
    | error rc => exact stable_const _
    | ok file => exact parseUbi_stable _ _ _ _ _ _
  · refine exists_congr fun found => and_congr_right fun _ => ?_
    cases found.res with
    | error rc => exact gives_pure_iff
    | ok file => exact Iff.rfl

/-- It does not depend on the fuel. -/
private theorem parseKernel_stable (s : Setup) (off size : Nat) (cfeOff : Option Nat)
    (kernelOff reads : Nat) : Stable (parseKernel s off size cfeOff kernelOff reads) := by
  refine (find_stable _ _ _).bind fun found => ?_
  cases found.res with
  | error rc => exact stable_const _
  | ok file => exact parseUbi_stable _ _ _ _ _ _

/-- With a CFE `parse_bcm_wfi` gives what the search for it makes of it. -/
private theorem gives_parseBcmWfi_cfe_iff :
    Gives (parseBcmWfi s off size reads true) p ↔
      ∃ found, Gives ((s.search cferamName off size false false).find off reads) found ∧
        match found.res with
        | .error rc => { ret := rc.toRet, pparts := none } = p
        | .ok file => Gives (parseKernel s off size (some file.offs)
            (file.offs + s.master.erasesize.toNat) found.reads) p := by
  refine (gives_bind_iff (find_stable _ _ _) fun found => ?_).trans ?_
  · cases found.res with
    | error rc => exact stable_const _
    | ok file => exact parseKernel_stable _ _ _ _ _ _
  · refine exists_congr fun found => and_congr_right fun _ => ?_
    cases found.res with
    | error rc => exact gives_pure_iff
    | ok file => exact Iff.rfl

/-- `parse_bcm_wfi` does not depend on the fuel. -/
private theorem parseBcmWfi_stable (s : Setup) (off size reads : Nat) (cfePart : Bool) :
    Stable (parseBcmWfi s off size reads cfePart) := by
  cases cfePart with
  | false => exact parseKernel_stable _ _ _ _ _ _
  | true =>
    refine (find_stable _ _ _).bind fun found => ?_
    cases found.res with
    | error rc => exact stable_const _
    | ok file => exact parseKernel_stable _ _ _ _ _ _

/-- What `parse_bcm_wfi` leaves with an image. -/
def imageParsed (off size : Nat) (cfeOff : Option Nat) (kernelOff rootfsOff : Nat) : Parsed :=
  { ret := numParts cfeOff, pparts := some (wfiTable off size cfeOff kernelOff rootfsOff) }

/-- The last part fails, or has the table for the first block with UBI. -/
private theorem parseUbi_cases (h : Gives (parseUbi s off size cfeOff kernelOff reads) p) :
    IsError p ∨ s.memory.wfiParts = true ∧ ∃ rootfsOff,
      UbiAt s.master (kernelOff + s.master.erasesize.toNat)
        (kernelOff + s.master.erasesize.toNat +
          (size - (kernelOff + s.master.erasesize.toNat - off))) reads rootfsOff ∧
      p = imageParsed off size cfeOff kernelOff rootfsOff := by
  obtain ⟨found, hfound, rfl⟩ := gives_parseUbi_iff.mp h
  cases found with
  | error rc => exact .inl ⟨Errno.toRet_neg rc, rfl⟩
  | ok rootfsOff =>
    -- the table needs memory
    cases hmemory : s.memory.wfiParts with
    | false =>
      left
      rw [wfiParsed, hmemory]
      exact ⟨Errno.toRet_neg .enomem, rfl⟩
    | true =>
      right
      refine ⟨rfl, rootfsOff, gives_ubifsFind_iff.mp hfound, ?_⟩
      rw [wfiParsed, hmemory]
      rfl

/-- From the kernel on it fails, or has the table of an image. -/
private theorem parseKernel_cases (cfePart : Bool) {start reads' : Nat}
    (hstart : KernelStart s cfePart off size reads cfeOff start reads')
    (h : Gives (parseKernel s off size cfeOff start reads') p) :
    IsError p ∨ s.memory.wfiParts = true ∧ ∃ kernelOff rootfsOff,
      Image s cfePart off size reads cfeOff kernelOff rootfsOff ∧
      p = imageParsed off size cfeOff kernelOff rootfsOff := by
  obtain ⟨found, hfound, hrest⟩ := gives_parseKernel_iff.mp h
  cases hres : found.res with
  | error rc =>
    simp only [hres] at hrest
    exact .inl ⟨hrest ▸ Errno.toRet_neg rc, hrest ▸ rfl⟩
  | ok file =>
    simp only [hres] at hrest
    rcases parseUbi_cases hrest with herror | ⟨hmemory, rootfsOff, hubi, hp⟩
    · exact .inl herror
    · exact .inr ⟨hmemory, file.offs, rootfsOff,
        ⟨start, reads', found, file, hstart, hfound, hres, rfl, hubi⟩, hp⟩

/-- `parse_bcm_wfi` fails, or has found an image. -/
private theorem parseBcmWfi_cases {cfePart : Bool}
    (h : Gives (parseBcmWfi s off size reads cfePart) p) :
    IsError p ∨ s.memory.wfiParts = true ∧ ∃ cfeOff kernelOff rootfsOff,
      Image s cfePart off size reads cfeOff kernelOff rootfsOff ∧
      p = imageParsed off size cfeOff kernelOff rootfsOff := by
  -- with a CFE partition the search for the kernel starts behind the CFE
  cases cfePart with
  | false =>
    rcases parseKernel_cases false ⟨rfl, rfl, rfl⟩ h with herror | ⟨hmemory, himage⟩
    · exact .inl herror
    · exact .inr ⟨hmemory, _, himage⟩
  | true =>
    obtain ⟨found, hfound, hrest⟩ := gives_parseBcmWfi_cfe_iff.mp h
    cases hres : found.res with
    | error rc =>
      simp only [hres] at hrest
      exact .inl ⟨hrest ▸ Errno.toRet_neg rc, hrest ▸ rfl⟩
    | ok file =>
      simp only [hres] at hrest
      rcases parseKernel_cases true
        ⟨found, file, hfound, hres, rfl, rfl, rfl⟩ hrest with herror | ⟨hmemory, himage⟩
      · exact .inl herror
      · exact .inr ⟨hmemory, _, himage⟩

/-- An image that is found is parsed. -/
private theorem parseBcmWfi_of_image {cfePart : Bool} (hmemory : s.memory.wfiParts = true)
    (h : Image s cfePart off size reads cfeOff kernelOff rootfsOff) :
    Gives (parseBcmWfi s off size reads cfePart)
      (imageParsed off size cfeOff kernelOff rootfsOff) := by
  obtain ⟨start, reads', found, file, hstart, hfound, hres, rfl, hubi⟩ := h
  -- from the inside out: the UBI header, the kernel in front of it, the CFE in front of that
  have hparse : Gives (parseUbi s off size cfeOff file.offs found.reads)
      (imageParsed off size cfeOff file.offs rootfsOff) := by
    refine gives_parseUbi_iff.mpr ⟨.ok rootfsOff, gives_ubifsFind_iff.mpr hubi, ?_⟩
    rw [wfiParsed, hmemory]
    rfl
  have hkernel : Gives (parseKernel s off size cfeOff start reads')
      (imageParsed off size cfeOff file.offs rootfsOff) := by
    refine gives_parseKernel_iff.mpr ⟨found, hfound, ?_⟩
    rw [hres]
    exact hparse
  cases cfePart with
  | false =>
    obtain ⟨rfl, rfl, rfl⟩ := hstart
    exact hkernel
  | true =>
    obtain ⟨cfe, cfeFile, hcfe, hcfeRes, rfl, rfl, rfl⟩ := hstart
    refine gives_parseBcmWfi_cfe_iff.mpr ⟨cfe, hcfe, ?_⟩
    rw [hcfeRes]
    exact hkernel

/-! ### The table -/

/-- The parts of an image are one behind the other in its half. -/
theorem Image.bounds {cfePart : Bool}
    (h : Image s cfePart off size reads cfeOff kernelOff rootfsOff) :
    (∀ cfe, cfeOff = some cfe → off ≤ cfe ∧ cfe < kernelOff) ∧ off ≤ kernelOff ∧
      kernelOff < rootfsOff ∧ rootfsOff < off + size ∧ 40 ≤ s.master.size := by
  obtain ⟨start, reads', found, file, hstart, hfound, hres, rfl, j, hj, hstop, -⟩ := h
  obtain ⟨hle, -, hes, hdevice⟩ := find_bounds hfound hres
  have hes' : 40 ≤ s.master.erasesize.toNat := hes
  have hdevice' : file.offs + s.master.erasesize.toNat ≤ s.master.size := hdevice
  -- the root file system starts a block behind the kernel at least
  have hjle : file.offs + s.master.erasesize.toNat ≤ rootfsOff := by
    rw [hj]
    exact Nat.le_add_right _ _
  cases cfePart with
  | false =>
    obtain ⟨rfl, rfl, rfl⟩ := hstart
    refine ⟨fun cfe hcfe => (by cases hcfe), hle, by omega, by omega, by omega⟩
  | true =>
    obtain ⟨cfe, cfeFile, hcfe, hcfeRes, rfl, rfl, rfl⟩ := hstart
    obtain ⟨hcfeLe, -⟩ := find_bounds hcfe hcfeRes
    refine ⟨fun c hc => ?_, by omega, by omega, by omega, by omega⟩
    obtain rfl := Option.some.inj hc
    omega

/-- The table has a CFE partition only if there is a CFE. -/
private theorem length_wfiTable (off size : Nat) (cfeOff : Option Nat) (kernelOff rootfsOff : Nat) :
    ((wfiTable off size cfeOff kernelOff rootfsOff).length : Int) = numParts cfeOff := by
  cases cfeOff <;> rfl

/-- There is a partition at least. -/
private theorem numParts_pos (cfeOff : Option Nat) : 0 < numParts cfeOff := by
  rw [numParts]
  split <;> decide

/-- The entries of an image are not empty, and inside of its half. -/
private theorem wfiTable_inside {cfePart : Bool}
    (h : Image s cfePart off size reads cfeOff kernelOff rootfsOff) {p : MtdPartition}
    (hp : p ∈ wfiTable off size cfeOff kernelOff rootfsOff) :
    0 < p.size ∧ p.offset + p.size ≤ off + size := by
  obtain ⟨hcfe, hoff, hkernel, hrootfs, -⟩ := h.bounds
  rw [wfiTable, List.mem_append] at hp
  rcases hp with hp | hp
  -- the CFE part, where the table has one
  · obtain ⟨cfe, hcfeOff, rfl⟩ := Option.map_eq_some_iff.mp (Option.mem_toList.mp hp)
    obtain ⟨-, hlt⟩ := hcfe cfe hcfeOff
    simp only [wfiCferam]
    omega
  -- the firmware, the kernel and the UBI part
  · simp only [List.mem_cons, List.not_mem_nil, or_false] at hp
    rcases hp with rfl | rfl | rfl
    · simp only [wfiFirmware]
      omega
    · simp only [wfiKernel]
      omega
    · simp only [wfiUbi]
      omega

/-- The table of the active image with the inactive one behind it. -/
private theorem isImageTable_of_image {cfePart first : Bool}
    (h : Image s cfePart (active s first).offset (active s first).size reads cfeOff kernelOff
      rootfsOff) :
    IsImageTable s first (wfiTable (active s first).offset (active s first).size cfeOff kernelOff
      rootfsOff ++ [inactive s first]) := by
  obtain ⟨-, hoff, hkernel, hrootfs, -⟩ := h.bounds
  have hmem : ∀ p ∈ [wfiFirmware (active s first).offset (active s first).size kernelOff,
      wfiKernel kernelOff rootfsOff,
      wfiUbi (active s first).offset (active s first).size rootfsOff],
      p ∈ wfiTable (active s first).offset (active s first).size cfeOff kernelOff rootfsOff ++
        [inactive s first] :=
    fun p hp => List.mem_append_left _ (List.mem_append_right _ hp)
  -- the firmware is the kernel and the UBI part, one behind the other
  refine ⟨⟨wfiFirmware (active s first).offset (active s first).size kernelOff, hmem _ (by simp),
    wfiKernel kernelOff rootfsOff, hmem _ (by simp),
    wfiUbi (active s first).offset (active s first).size rootfsOff, hmem _ (by simp),
    rfl, rfl, rfl, rfl, ?_, ?_, hoff, ?_⟩, List.mem_append_right _ (by simp)⟩
  · simp only [wfiUbi, wfiKernel]
    omega
  · simp only [wfiUbi, wfiFirmware]
    omega
  · simp only [wfiFirmware]
    omega

/-- The active half is inside of the device. -/
private theorem active_inside (s : Setup) (first : Bool) :
    (active s first).offset + (active s first).size ≤ s.master.size := by
  cases first with
  | false =>
    rw [active, if_neg (by decide), img2]
    simp only
    omega
  | true =>
    rw [active, if_pos rfl, img1]
    simp only
    omega

/-- The inactive half is inside of the device, and not empty. -/
private theorem inactive_inside (s : Setup) (first : Bool) (h : 2 ≤ s.master.size) :
    0 < (inactive s first).size ∧
      (inactive s first).offset + (inactive s first).size ≤ s.master.size := by
  cases first with
  | false =>
    rw [inactive, if_neg (by decide), img1]
    simp only
    omega
  | true =>
    rw [inactive, if_pos rfl, img2]
    simp only
    omega

/-! ### What the splitters leave -/

/-- Splitting the active half does not depend on the fuel. -/
private theorem splitActive_stable (s : Setup) (first : Bool) (reads : Nat) (cfePart : Bool) :
    Stable (splitActive s first reads cfePart) :=
  (parseBcmWfi_stable _ _ _ _ _).bind fun _ => stable_const _

/-- Splitting the active half is parsing it and adding the other one. -/
private theorem gives_splitActive_iff {first cfePart : Bool} {r : Parsed} :
    Gives (splitActive s first reads cfePart) r ↔
      ∃ wfi, Gives (parseBcmWfi s (active s first).offset (active s first).size reads cfePart) wfi ∧
        splitTable s first wfi = .ok r := by
  refine (gives_bind_iff (parseBcmWfi_stable _ _ _ _ _) fun wfi => stable_const _).trans ?_
  simp only [gives_lift_iff]

/-- The splitter has memory for the tables. -/
def HasMemory (s : Setup) : Prop := s.memory.wfiParts = true ∧ s.memory.parts = true

/-- The table of the halves comes with an error. -/
private theorem splitTable_of_isError {first : Bool} {wfi r : Parsed} (hwfi : IsError wfi)
    (h : splitTable s first wfi = .ok r) : ¬Counted r := by
  have hneg : ¬0 < wfi.ret := by
    have := hwfi.1
    omega
  rw [splitTable, if_neg hneg] at h
  cases hparts : s.memory.parts with
  | false =>
    rw [hparts] at h
    cases h
  | true =>
    rw [hparts] at h
    cases h
    -- two entries
    show ¬wfi.ret = 2
    omega

/-- The table of an image is handed over with the other half, if there is memory. -/
private theorem splitTable_image {first : Bool} :
    splitTable s first (imageParsed off size cfeOff kernelOff rootfsOff) =
      .ok (if s.memory.parts then
        { ret := numParts cfeOff + 1
          pparts := some (wfiTable off size cfeOff kernelOff rootfsOff ++ [inactive s first]) }
      else { ret := Errno.enomem.toRet
             pparts := some (wfiTable off size cfeOff kernelOff rootfsOff) }) := by
  have htake : (wfiTable off size cfeOff kernelOff rootfsOff).take (numParts cfeOff).toNat =
      wfiTable off size cfeOff kernelOff rootfsOff := by
    cases cfeOff <;> rfl
  have hpos : 0 < (imageParsed off size cfeOff kernelOff rootfsOff).ret := numParts_pos cfeOff
  rw [splitTable, if_pos hpos]
  cases s.memory.parts with
  | false => rfl
  | true => simp [imageParsed, htake]

/-- An active half with an image, and memory for the tables. -/
private theorem handsOver_of_image {cfePart first : Bool} {Chooses : Bool → Nat → Prop}
    (hchooses : ∀ first' reads', Chooses first' reads' → first' = first ∧ reads' = reads)
    (h : Image s cfePart (active s first).offset (active s first).size reads cfeOff kernelOff
      rootfsOff) :
    HandsOver s cfePart Chooses
      { ret := numParts cfeOff + 1
        pparts := some (wfiTable (active s first).offset (active s first).size cfeOff kernelOff
          rootfsOff ++ [inactive s first]) } := by
  obtain ⟨-, -, -, -, hsize⟩ := h.bounds
  constructor
  · show numParts cfeOff + 1 = ((_ ++ [_] : List MtdPartition).length : Int)
    simp [← length_wfiTable (active s first).offset (active s first).size cfeOff kernelOff rootfsOff]
  -- the parts of the active image, and the inactive image as a whole
  · rintro parts ⟨⟩ p hp
    rcases List.mem_append.mp hp with hp | hp
    · obtain ⟨hpos, hle⟩ := wfiTable_inside h hp
      exact ⟨hpos, hle.trans (active_inside s first)⟩
    · obtain rfl := List.mem_singleton.mp hp
      exact inactive_inside s first (by omega)
  · rintro first' reads' hchoose - parts ⟨⟩
    obtain ⟨rfl, rfl⟩ := hchooses first' reads' hchoose
    exact isImageTable_of_image h
  · intro first' reads' hchoose hnone
    obtain ⟨rfl, rfl⟩ := hchooses first' reads' hchoose
    exact absurd ⟨cfeOff, kernelOff, rootfsOff, h⟩ hnone

/-- With the active half chosen, the table is handed over exactly where there is an image. -/
private theorem splitActive_handsOver_iff {cfePart first : Bool} {Chooses : Bool → Nat → Prop}
    (hchooses : ∀ first' reads', Chooses first' reads' → first' = first ∧ reads' = reads) :
    (∃ r, Gives (splitActive s first reads cfePart) r ∧ HandsOver s cfePart Chooses r) ↔
      HasImage s cfePart first reads ∧ HasMemory s := by
  constructor
  · rintro ⟨r, hgives, hover⟩
    obtain ⟨wfi, hwfi, htable⟩ := gives_splitActive_iff.mp hgives
    rcases parseBcmWfi_cases hwfi with herror | ⟨hmemory, cfeOff, kernelOff, rootfsOff, himage, rfl⟩
    · exact absurd hover.counted (splitTable_of_isError herror htable)
    · refine ⟨⟨cfeOff, kernelOff, rootfsOff, himage⟩, hmemory, ?_⟩
      rw [splitTable_image] at htable
      cases hparts : s.memory.parts with
      | true => rfl
      | false =>
        -- the table of the image stays behind an error
        rw [hparts] at htable
        cases htable
        have hcounted : Errno.enomem.toRet = ((wfiTable _ _ _ _ _).length : Int) := hover.counted
        have hneg := Errno.toRet_neg .enomem
        omega
  · rintro ⟨⟨cfeOff, kernelOff, rootfsOff, himage⟩, hmemory, hparts⟩
    refine ⟨_, gives_splitActive_iff.mpr ⟨_, parseBcmWfi_of_image hmemory himage, ?_⟩,
      handsOver_of_image hchooses himage⟩
    rw [splitTable_image, hparts]
    rfl

/-- An error without a table, where no half is chosen. -/
private theorem handsOver_of_isError {cfePart : Bool} {Chooses : Bool → Nat → Prop} {r : Parsed}
    (hr : IsError r) (hchooses : ∀ first reads, ¬Chooses first reads) :
    HandsOver s cfePart Chooses r := by
  constructor
  · rw [Counted, hr.2]
    exact hr.1
  · intro parts hparts
    rw [hr.2] at hparts
    cases hparts
  · exact fun first reads hchoose => absurd hchoose (hchooses first reads)
  · exact fun first reads hchoose => absurd hchoose (hchooses first reads)

/-! ### `mtdsplit_parse_bcm_wfi_split` -/

/-- The boot flags choose one half. -/
private theorem cfeChooses_unique {first first' : Bool} {reads' : Nat}
    (h : CfeChooses s first reads)
    (h' : CfeChooses s first' reads') : first' = first ∧ reads' = reads := by
  obtain ⟨-, cfe1, cfe2, bf1, bf2, hcfe1, hcfe2, hbf1, hbf2, rfl, rfl⟩ := h
  obtain ⟨-, cfe1', cfe2', bf1', bf2', hcfe1', hcfe2', hbf1', hbf2', rfl, rfl⟩ := h'
  obtain rfl := hcfe1.unique (find_stable _ _ _) hcfe1'
  obtain rfl := hcfe2.unique (find_stable _ _ _) hcfe2'
  obtain rfl := Except.ok.inj (hbf1.symm.trans hbf1')
  obtain rfl := Except.ok.inj (hbf2.symm.trans hbf2')
  exact ⟨rfl, rfl⟩

/-- What follows the searches for the `cferam` of both images. -/
def cfeSplit (s : Setup) (cfe1 cfe2 : Ret) : Fueled Fault Parsed := fun fuel =>
  Fueled.lift (cferamBootflag cfe1) >>= fun bf1 =>
    Fueled.lift (cferamBootflag cfe2) >>= fun bf2 =>
      splitActive s (bf2 ≤ bf1) cfe2.reads true fuel

/-- The split by boot flags does not depend on the fuel. -/
private theorem cfeSplit_stable (s : Setup) (cfe1 cfe2 : Ret) : Stable (cfeSplit s cfe1 cfe2) :=
  (stable_const _).bind fun _ => (stable_const _).bind fun _ => splitActive_stable _ _ _ _

/-- The greater boot flag, or the first of equal ones, is that of the active half. -/
private theorem gives_cfeSplit_iff {cfe1 cfe2 : Ret} {r : Parsed} :
    Gives (cfeSplit s cfe1 cfe2) r ↔ ∃ bf1 bf2, cferamBootflag cfe1 = .ok bf1 ∧
      cferamBootflag cfe2 = .ok bf2 ∧ Gives (splitActive s (bf2 ≤ bf1) cfe2.reads true) r := by
  have hbf2 : ∀ bf1 : Int, Stable fun fuel =>
      (Fueled.lift (cferamBootflag cfe2) >>= fun bf2 =>
        splitActive s (bf2 ≤ bf1) cfe2.reads true fuel) := fun bf1 =>
    (stable_const _).bind fun _ => splitActive_stable _ _ _ _
  refine (gives_bind_iff (stable_const _) hbf2).trans ?_
  simp only [gives_bind_iff (stable_const _) fun bf2 => splitActive_stable s _ _ _, gives_lift_iff,
    exists_and_left]

/-- The searches for the `cferam` of the second image, and what follows. -/
def cfeSecond (s : Setup) (cfe1 : Ret) : Fueled Fault Parsed := fun fuel =>
  (cferamSearch s (img2 s) s.memory.cfe2Name).find (img2 s).offset cfe1.reads fuel >>= fun cfe2 =>
    cfeSplit s cfe1 cfe2 fuel

/-- The search in the second half does not depend on the fuel. -/
private theorem cfeSecond_stable (s : Setup) (cfe1 : Ret) : Stable (cfeSecond s cfe1) :=
  (find_stable _ _ _).bind fun _ => cfeSplit_stable _ _ _

/-- The parser searches the two halves one after the other. -/
private theorem bcmWfiSplit_eq (hbuf : s.memory.buf = true) :
    mtdsplitParseBcmWfiSplit s = fun fuel =>
      (cferamSearch s (img1 s) s.memory.cfe1Name).find (img1 s).offset 0 fuel >>= fun cfe1 =>
        cfeSecond s cfe1 fuel := by
  funext fuel
  rw [mtdsplitParseBcmWfiSplit, hbuf]
  rfl

/-- The parser does not depend on the fuel. -/
theorem bcmWfiSplit_stable (hbuf : s.memory.buf = true) : Stable (mtdsplitParseBcmWfiSplit s) := by
  rw [bcmWfiSplit_eq hbuf]
  exact (find_stable _ _ _).bind fun _ => cfeSecond_stable _ _

/-- The parser splits the half that the boot flags choose. -/
private theorem gives_bcmWfiSplit_iff (hbuf : s.memory.buf = true) {r : Parsed} :
    Gives (mtdsplitParseBcmWfiSplit s) r ↔
      ∃ first reads, CfeChooses s first reads ∧ Gives (splitActive s first reads true) r := by
  rw [bcmWfiSplit_eq hbuf]
  refine (gives_bind_iff (find_stable _ _ _) fun cfe1 => cfeSecond_stable _ _).trans ?_
  -- the second search starts with the reads left by the first
  have hsecond : ∀ cfe1, Gives (cfeSecond s cfe1) r ↔ ∃ cfe2,
      Gives ((cferamSearch s (img2 s) s.memory.cfe2Name).find (img2 s).offset cfe1.reads) cfe2 ∧
        Gives (cfeSplit s cfe1 cfe2) r := fun cfe1 =>
    gives_bind_iff (find_stable _ _ _) fun cfe2 => cfeSplit_stable _ _ _
  simp only [hsecond, gives_cfeSplit_iff]
  constructor
  · rintro ⟨cfe1, hcfe1, cfe2, hcfe2, bf1, bf2, hbf1, hbf2, hsplit⟩
    exact ⟨_, _, ⟨hbuf, cfe1, cfe2, bf1, bf2, hcfe1, hcfe2, hbf1, hbf2, rfl, rfl⟩, hsplit⟩
  · rintro ⟨first, reads, ⟨-, cfe1, cfe2, bf1, bf2, hcfe1, hcfe2, hbf1, hbf2, rfl, rfl⟩, hsplit⟩
    exact ⟨cfe1, hcfe1, cfe2, hcfe2, bf1, bf2, hbf1, hbf2, hsplit⟩

/-- `mtdsplit_parse_bcm_wfi_split` hands over its table exactly if it has no memory for its buffer,
    or the boot flags choose a half with an image and there is memory for the tables. -/
theorem bcmHandsOver_iff (s : Setup) :
    BcmHandsOver s ↔ s.memory.buf = false ∨
      ((∃ first reads, CfeChooses s first reads ∧ HasImage s true first reads) ∧ HasMemory s) := by
  cases hbuf : s.memory.buf with
  | false =>
    -- without memory for the buffer the parser is an error
    refine iff_of_true ⟨{ ret := Errno.enomem.toRet, pparts := none }, ⟨0, ?_⟩, ?_⟩ (.inl rfl)
    · rw [mtdsplitParseBcmWfiSplit, hbuf]
      rfl
    · refine handsOver_of_isError ⟨Errno.toRet_neg .enomem, rfl⟩ fun first reads hchoose => ?_
      rw [hchoose.1] at hbuf
      cases hbuf
  | true =>
    constructor
    · rintro ⟨r, hgives, hover⟩
      obtain ⟨first, reads, hchoose, hsplit⟩ := (gives_bcmWfiSplit_iff hbuf).mp hgives
      obtain ⟨himage, hmemory⟩ := (splitActive_handsOver_iff fun _ _ => cfeChooses_unique hchoose).mp
        ⟨r, hsplit, hover⟩
      exact .inr ⟨⟨first, reads, hchoose, himage⟩, hmemory⟩
    · rintro (hfalse | ⟨⟨first, reads, hchoose, himage⟩, hmemory⟩)
      · cases hfalse
      · obtain ⟨r, hsplit, hover⟩ := (splitActive_handsOver_iff fun _ _ =>
          cfeChooses_unique hchoose).mpr ⟨himage, hmemory⟩
        exact ⟨r, (gives_bcmWfiSplit_iff hbuf).mpr ⟨first, reads, hchoose, hsplit⟩, hover⟩

/-! ### `mtdsplit_parse_ser_wfi` -/

section Sercomm

variable {mtdBf1 mtdBf2 : Option MtdInfo} {dev1 dev2 : MtdInfo}

/-- The boot flags of Sercomm choose one half. -/
private theorem sercommChooses_unique {first first' : Bool} {reads' : Nat}
    (h : SercommChooses s mtdBf1 mtdBf2 first reads)
    (h' : SercommChooses s mtdBf1 mtdBf2 first' reads') : first' = first ∧ reads' = reads := by
  obtain ⟨-, dev1, dev2, bf1, bf2, rfl, rfl, hbf1, hbf2, rfl, rfl⟩ := h
  obtain ⟨-, dev1', dev2', bf1', bf2', hdev1, hdev2, hbf1', hbf2', rfl, rfl⟩ := h'
  cases hdev1
  cases hdev2
  obtain rfl := hbf1.unique (sercommBootflagValue_stable _ _) hbf1'
  obtain rfl := hbf2.unique (sercommBootflagValue_stable _ _) hbf2'
  exact ⟨rfl, rfl⟩

/-- The parser of Sercomm splits the half that its boot flags choose. -/
private theorem gives_serWfi_iff (hbuf : s.memory.buf = true) {r : Parsed} :
    Gives (mtdsplitParseSerWfi s (some dev1) (some dev2)) r ↔
      ∃ first reads, SercommChooses s (some dev1) (some dev2) first reads ∧
        Gives (splitActive s first reads false) r := by
  -- both flags are read before either is compared
  have hfun : mtdsplitParseSerWfi s (some dev1) (some dev2) = fun fuel =>
      sercommBootflagValue dev1 s.master.erasesize.toNat fuel >>= fun bf1 =>
        sercommBootflagValue dev2 s.master.erasesize.toNat fuel >>= fun bf2 =>
          splitActive s (sercommFirst bf1 bf2) 0 false fuel := by
    funext fuel
    simp only [mtdsplitParseSerWfi, hbuf]
    rfl
  have hbf2 : ∀ bf1 : Int, Stable fun fuel =>
      (sercommBootflagValue dev2 s.master.erasesize.toNat fuel >>= fun bf2 =>
        splitActive s (sercommFirst bf1 bf2) 0 false fuel) := fun bf1 =>
    (sercommBootflagValue_stable _ _).bind fun _ => splitActive_stable _ _ _ _
  rw [hfun]
  refine (gives_bind_iff (sercommBootflagValue_stable _ _) hbf2).trans ?_
  simp only [gives_bind_iff (sercommBootflagValue_stable _ _) fun bf2 =>
    splitActive_stable s _ _ _]
  constructor
  · rintro ⟨bf1, hbf1, bf2, hbf2, hsplit⟩
    exact ⟨_, _, ⟨hbuf, dev1, dev2, bf1, bf2, rfl, rfl, hbf1, hbf2, rfl, rfl⟩, hsplit⟩
  · rintro ⟨first, reads, ⟨-, dev1', dev2', bf1, bf2, hdev1, hdev2, hbf1, hbf2, rfl, rfl⟩, hsplit⟩
    cases hdev1
    cases hdev2
    exact ⟨bf1, hbf1, bf2, hbf2, hsplit⟩

/-- Without a device or the buffer nothing is chosen. -/
private theorem serHandsOver_of_isError {r : Parsed} (hr : IsError r)
    (hgives : Gives (mtdsplitParseSerWfi s mtdBf1 mtdBf2) r)
    (hnone : ∀ first reads, ¬SercommChooses s mtdBf1 mtdBf2 first reads) :
    SerHandsOver s mtdBf1 mtdBf2 :=
  ⟨r, hgives, handsOver_of_isError hr hnone⟩

/-- `mtdsplit_parse_ser_wfi` hands over its table exactly if a boot flag has no device, it has no
    memory for its buffer, or the boot flags choose a half with an image and there is memory for the
    tables. -/
theorem serHandsOver_iff (s : Setup) (mtdBf1 mtdBf2 : Option MtdInfo) :
    SerHandsOver s mtdBf1 mtdBf2 ↔ (mtdBf1 = none ∨ mtdBf2 = none) ∨ s.memory.buf = false ∨
      ((∃ first reads, SercommChooses s mtdBf1 mtdBf2 first reads ∧
        HasImage s false first reads) ∧ HasMemory s) := by
  have henoent : IsError { ret := Errno.enoent.toRet, pparts := none } :=
    ⟨Errno.toRet_neg .enoent, rfl⟩
  -- a missing bootflag partition or buffer is an error, and an error hands nothing over wrongly
  cases mtdBf1 with
  | none =>
    refine iff_of_true (serHandsOver_of_isError henoent ⟨0, rfl⟩ fun first reads hchoose => ?_)
      (.inl (.inl rfl))
    obtain ⟨-, dev1, dev2, bf1, bf2, hdev1, -⟩ := hchoose
    cases hdev1
  | some dev1 =>
    cases mtdBf2 with
    | none =>
      refine iff_of_true (serHandsOver_of_isError henoent ⟨0, rfl⟩ fun first reads hchoose => ?_)
        (.inl (.inr rfl))
      obtain ⟨-, dev1, dev2, bf1, bf2, -, hdev2, -⟩ := hchoose
      cases hdev2
    | some dev2 =>
      cases hbuf : s.memory.buf with
      | false =>
        have henomem : IsError { ret := Errno.enomem.toRet, pparts := none } :=
          ⟨Errno.toRet_neg .enomem, rfl⟩
        refine iff_of_true (serHandsOver_of_isError henomem ⟨0, ?_⟩ fun first reads hchoose => ?_)
          (.inr (.inl rfl))
        · simp only [mtdsplitParseSerWfi, hbuf]
          rfl
        · rw [hchoose.1] at hbuf
          cases hbuf
      | true =>
        constructor
        -- with both bootflags the parser is that of the chosen partition
        · rintro ⟨r, hgives, hover⟩
          obtain ⟨first, reads, hchoose, hsplit⟩ := (gives_serWfi_iff hbuf).mp hgives
          obtain ⟨himage, hmemory⟩ := (splitActive_handsOver_iff fun _ _ =>
            sercommChooses_unique hchoose).mp ⟨r, hsplit, hover⟩
          exact .inr (.inr ⟨⟨first, reads, hchoose, himage⟩, hmemory⟩)
        · rintro ((hnone | hnone) | hfalse | ⟨⟨first, reads, hchoose, himage⟩, hmemory⟩)
          · cases hnone
          · cases hnone
          · cases hfalse
          · obtain ⟨r, hsplit, hover⟩ := (splitActive_handsOver_iff fun _ _ =>
              sercommChooses_unique hchoose).mpr ⟨himage, hmemory⟩
            exact ⟨r, (gives_serWfi_iff hbuf).mpr ⟨first, reads, hchoose, hsplit⟩, hover⟩

end Sercomm

/-- When the splitters hand over their table. -/
theorem splitters_handOver_iff (s : Setup) (mtdBf1 mtdBf2 : Option MtdInfo) :
    (BcmHandsOver s ↔ s.memory.buf = false ∨
      ((∃ first reads, CfeChooses s first reads ∧ HasImage s true first reads) ∧ HasMemory s)) ∧
    (SerHandsOver s mtdBf1 mtdBf2 ↔ (mtdBf1 = none ∨ mtdBf2 = none) ∨ s.memory.buf = false ∨
      ((∃ first reads, SercommChooses s mtdBf1 mtdBf2 first reads ∧
        HasImage s false first reads) ∧ HasMemory s)) :=
  ⟨bcmHandsOver_iff s, serHandsOver_iff s mtdBf1 mtdBf2⟩

/-- An erased flash of four blocks, with all the memory that is asked for. -/
def erased : Setup where
  endian := .little
  master :=
    { size := 0x80000, erasesize := 0x20000, flash := fun _ => 0xff,
      outcome := fun _ _ => .ok 0x20000 }
  memory := { buf := true, cfe1Name := true, cfe2Name := true, wfiParts := true, parts := true }

/-- What an erased flash leaves: the table of the halves with -ENOENT. -/
def erasedParsed : Parsed := { ret := -2, pparts := some [img1 erased, img2 erased] }

/-- On an erased flash a table of two halves is left, but an error is returned. -/
theorem erased_not_handedOver :
    Gives (mtdsplitParseBcmWfiSplit erased) erasedParsed ∧ ¬BcmHandsOver erased := by
  have hgives : Gives (mtdsplitParseBcmWfiSplit erased) erasedParsed := ⟨3, by rfl⟩
  refine ⟨hgives, ?_⟩
  rintro ⟨r, hr, hover⟩
  obtain rfl := hgives.unique (bcmWfiSplit_stable rfl) hr
  have hcounted : (-2 : Int) = 2 := hover.counted
  omega

end HandsomeMod.Native.BcmWfi
