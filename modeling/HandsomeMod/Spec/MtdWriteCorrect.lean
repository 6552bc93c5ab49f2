import HandsomeMod.Spec.MtdWriteLoop

/-!
# `mtd_write` to one device

With one device, erasing enabled and no `-j`, `mtd_write` either returns 0 with the image stored
block by block in the good blocks of the device, or ends the program with an error.
-/

namespace HandsomeMod.Native.Mtd

open HandsomeMod.ForStd

/-- All blocks of the device that are not bad, in order. -/
def MtdDev.goodBlocks (d : MtdDev) : List Nat := d.goodBelow d.nblocks

/-- The good blocks that the image takes up. -/
def MtdDev.usedBlocks (d : MtdDev) (img : List UInt8) : List Nat :=
  d.goodBlocks.take (numChunks d.erasesize img)

/-- The image is stored on the device, and nothing else was changed. The log is the list of all
    erases and writes in the order in which they happened. -/
structure ImageStored (img : List UInt8) (d : MtdDev) (mem0 : Nat → UInt8) (fd : Fd) : Prop where
  fits : numChunks d.erasesize img ≤ d.goodBlocks.length
  stored : ∀ i g, i < numChunks d.erasesize img → d.goodBlocks[i]? = some g →
    readBlock d.erasesize fd.mem g = chunk d.erasesize 0xff img i
  erasedThenWritten : fd.log = (d.usedBlocks img).flatMap (blockOps d.erasesize)
  badUntouched : ∀ b, d.isBad b = true →
    Op.erase (b * d.erasesize) ∉ fd.log ∧ (∀ off len, Op.write (b * d.erasesize) off len ∉ fd.log)
  othersKept : ∀ b ∉ d.usedBlocks img,
    readBlock d.erasesize fd.mem b = readBlock d.erasesize mem0 b

/-- The good blocks below `b` are the first good blocks of the device. -/
theorem MtdDev.goodBelow_eq_take (d : MtdDev) {b : Nat} (hb : b ≤ d.nblocks) :
    d.goodBelow b = d.goodBlocks.take (d.goodBelow b).length := by
  have hpre : d.goodBelow b <+: d.goodBlocks :=
    (List.IsPrefix.filter _ (List.prefix_iff_eq_take.mpr (by
      rw [List.length_range, List.take_range, Nat.min_eq_left hb])))
  exact List.prefix_iff_eq_take.mp hpre

/-- Every logged change of a run of `blockOps` is about one of the blocks. -/
private theorem mem_flatMap_blockOps {es : Nat} {gs : List Nat} {op : Op}
    (h : op ∈ gs.flatMap (blockOps es)) :
    ∃ g ∈ gs, op = .erase (g * es) ∨ op = .write (g * es) 0 es := by
  obtain ⟨g, hg, hop⟩ := List.mem_flatMap.mp h
  simp only [blockOps, List.mem_cons, List.not_mem_nil, or_false] at hop
  exact ⟨g, hg, hop⟩

/-- A state in step with the whole image written is one with the image stored. -/
private theorem InStep.imageStored {img : List UInt8} {d : MtdDev} {mem0 : Nat → UInt8} {b : Nat}
    {st : St} (h : InStep img d mem0 0 b st)
    (hall : img.length ≤ (0 + (d.goodBelow b).length) * d.erasesize) :
    ImageStored img d mem0 st.fd := by
  have hes := d.erasesize_pos
  -- the loop stored as many chunks as it passed good blocks, which is the whole image
  have hn : numChunks d.erasesize img = (d.goodBelow b).length := by
    have hle := h.le_numChunks
    have hge := (numChunks_le_iff _ hes _ _).mpr hall
    omega
  have hused : d.usedBlocks img = d.goodBelow b := by
    rw [MtdDev.usedBlocks, hn]
    exact (d.goodBelow_eq_take h.le_nblocks).symm
  have hlen : (d.goodBelow b).length ≤ d.goodBlocks.length := by
    rw [d.goodBelow_eq_take h.le_nblocks, List.length_take]
    omega
  refine
    { fits := by omega
      stored := fun i g hi hg => ?_
      erasedThenWritten := by rw [hused]; exact h.log_eq
      badUntouched := fun b' hb' => ?_
      othersKept := fun b' hb' => h.kept b' (by rwa [← hused]) }
  · have hget : (d.goodBelow b)[i]? = some g := by
      rw [d.goodBelow_eq_take h.le_nblocks, List.getElem?_take_of_lt (by omega), hg]
    have hmap := congrArg (fun l => l[i]?) h.stored
    simp only [List.getElem?_map, hget, Option.map_some] at hmap
    rw [List.getElem?_range' (by omega)] at hmap
    simpa using hmap
  -- a bad block is none of the blocks of the log
  · have hne : ∀ g ∈ d.goodBelow b, b' * d.erasesize ≠ g * d.erasesize := by
      intro g hg heq
      have hgood := ((d.mem_goodBelow b g).mp hg).2
      rw [Nat.eq_of_mul_eq_mul_right hes heq, hgood] at hb'
      cases hb'
    rw [h.log_eq]
    constructor
    · intro hmem
      obtain ⟨g, hg, heq | heq⟩ := mem_flatMap_blockOps hmem
      · exact hne g hg (Op.erase.inj heq)
      · cases heq
    · intro off len hmem
      obtain ⟨g, hg, heq | heq⟩ := mem_flatMap_blockOps hmem
      · cases heq
      · exact hne g hg (Op.write.inj heq).1

/-- The state in which a device is opened with `k0` chunks written elsewhere is in step. -/
theorem inStep_open (cfg : Config) (hpart : cfg.partOffset = 0) (img : List UInt8) (t : Target)
    (k0 : Nat) (st : St) (hp : Pending t.1.erasesize img k0 st.buf st.rest)
    (hk : k0 ≤ numChunks t.1.erasesize img) (herr : ReadRes.error ∉ st.script)
    (hoff : st.offset = 0) (hskip : st.skip = 0) (hjffs2 : st.jffs2file = false)
    (hbad : st.skipBadBlocks = 0) :
    InStep img t.1 t.2 k0 0 { st with fd := openTarget cfg t, w := 0, e := 0 } :=
  { pending := hp
    le_numChunks := hk
    noError := herr
    offset_eq := hoff
    skip_eq := hskip
    jffs2file_eq := hjffs2
    le_nblocks := Nat.zero_le _
    e_eq := (Nat.zero_mul _).symm
    pos_eq := by rw [Nat.zero_mul]; exact hpart
    w_eq := (Nat.zero_mul _).symm
    sync := by simp [hbad]
    erasable := fun i hi => absurd hi (Nat.not_lt_zero i)
    log_eq := rfl
    stored := rfl
    kept := fun _ _ => rfl }

/-- The image as `image_check` leaves it is pending from its first chunk on. -/
theorem pending_image (es : Nat) (img : Image) (hbuf : img.buf.length ≤ es) :
    Pending es img.bytes 0 img.buf img.rest :=
  Or.inl ⟨by rw [Nat.zero_mul, List.drop_zero, Image.bytes], hbuf⟩

/-- `mtd_write` to a single device, erase enabled, no jffs2 file, part offset 0, reads that fail
    only with `EINTR` or `EAGAIN`: it returns 0 with the image stored, or the program exits with
    an error. -/
theorem mtdWrite_single (cfg : Config) (hpart : cfg.partOffset = 0) (herase : cfg.noErase = false)
    (d : MtdDev) (mem0 : Nat → UInt8) (img : Image) (hbuf : img.buf.length ≤ d.erasesize)
    (herr : ReadRes.error ∉ img.script) :
    (∃ fd, mtdWrite cfg false [(d, mem0)] img = .returned [fd] ∧
      ImageStored img.bytes d mem0 fd) ∨
    mtdWrite cfg false [(d, mem0)] img = .exited := by
  have hin := inStep_open cfg hpart img.bytes (d, mem0) 0
    { buf := img.buf, rest := img.rest, script := img.script, offset := 0, skipBadBlocks := 0
      skip := 0, jffs2file := false, parsed := [], fd := ⟨0, fun _ => 0, []⟩, w := 0, e := 0 }
    (pending_image d.erasesize img hbuf) (Nat.zero_le _) herr rfl rfl rfl rfl
  have hloop := writeLoop_spec cfg hpart herase false (img.rest.length + 2) hin
    (by simp only [turnsLeft]; split <;> omega)
  simp only [mtdWrite, writeFrom, List.isEmpty_nil, Bool.not_true]
  generalize writeLoop cfg d false _ _ = t at hloop ⊢
  -- there is no next device, so the loop finishes the image or ends the program
  cases t with
  | done st' =>
    obtain ⟨b, st, h, hfd, hall⟩ := hloop
    left
    exact ⟨st'.fd, rfl, by rw [hfd]; exact h.imageStored hall⟩
  | resume st' => exact Bool.noConfusion hloop.1
  | exit => exact Or.inr rfl
  | again st' => exact hloop.elim
  | outOfFuel => exact hloop.elim

/-- Options of a plain `mtd write`. -/
def plainConfig : Config :=
  { noErase := false, partOffset := 0, jffs2SkipBytes := 0, heap := fun _ => 0
    replaceJffs2 := fun _ _ fd _ => (fd, 0) }

/-- A device of three 2-byte blocks. -/
def threeBlocks (mtdtype : MtdType) (bad eraseFault : Nat → Bool) : MtdDev :=
  { mtdtype, erasesize := 2, size := 6, bad, eraseFault, writeFault := fun _ => none
    erasesize_pos := by decide, size_dvd := by decide, size_lt := by decide }

/-- A NAND device whose first block is bad. -/
def smallNand : MtdDev := threeBlocks .nandflash (· == 0) fun _ => false

/-- Three bytes, read one by one after an interrupted read, go to the two good blocks. -/
theorem mtdWrite_single_smallNand :
    ∃ fd, mtdWrite plainConfig false [(smallNand, fun _ => 0)]
        ⟨[], [1, 2, 3], [.eintr, .short 1, .eagain]⟩ = .returned [fd] ∧
      ImageStored [1, 2, 3] smallNand (fun _ => 0) fd := by
  have h := mtdWrite_single plainConfig rfl rfl smallNand (fun _ => 0)
    ⟨[], [1, 2, 3], [.eintr, .short 1, .eagain]⟩ (by decide) (by decide)
  refine h.resolve_right fun hexit => ?_
  have hlogs := congrArg Outcome.logs hexit
  exact absurd hlogs (by decide)

end HandsomeMod.Native.Mtd
