import HandsomeMod.Spec.MtdWriteCorrect

/-!
# `mtd_write` across several devices

When an erase fails on `d1` of `d1:d2:...` the buffered block is handed to `d2`. The resume path
resets `w` and `e` but not `skip_bad_blocks`, and it writes and skips `e - w` bytes of the buffer,
which is the number of bad bytes skipped on `d1`. So the image is spread over the devices in order
exactly when no device that is left behind had a bad block before the failing one: with a bad block
the next write starts behind the end of the buffer.
-/

namespace HandsomeMod.Native.Mtd

open HandsomeMod.ForStd

/-! ### What a spread image looks like -/

/-- The bytes a logged change has left on the device. -/
def Op.contents (mem : Nat → UInt8) : Op → List UInt8
  | .erase _ => []
  | .write pos _ len => (List.range len).map fun j => mem (pos + j)

/-- The contents of everything that was written to a device, in the order of writing. -/
def Fd.written (fd : Fd) : List UInt8 := fd.log.flatMap (Op.contents fd.mem)

/-- The writes to `d` are whole blocks and go to good blocks. -/
def WritesGoodBlocks (es : Nat) (d : MtdDev) (fd : Fd) : Prop :=
  ∀ pos off len, Op.write pos off len ∈ fd.log → len = es ∧ ∃ b, pos = b * es ∧ d.isBad b = false

/-- Something was written to the device from behind the buffer. -/
def WroteOutside (es : Nat) (fd : Fd) : Prop :=
  ∃ pos off len, Op.write pos off len ∈ fd.log ∧ es < off + len

/-- The image, padded with `0xff` to a multiple of the erase size, is what was written to the
    good blocks of the devices one after the other, all of it from inside the buffer. -/
structure Spread (es : Nat) (img : List UInt8) (ts : List Target) (fds : List Fd) : Prop where
  inBuffer : ∀ fd ∈ fds, ¬WroteOutside es fd
  goodBlocks : ∀ p ∈ ts.zip fds, WritesGoodBlocks es p.1.1 p.2
  contents : fds.flatMap Fd.written = padded es 0xff img

/-! ### Which hand-overs are clean -/

/-- Behind the device is a block that cannot be erased. -/
theorem MtdDev.exists_fault (d : MtdDev) : ∃ b, d.isBad b = false ∧ d.canErase b = false :=
  ⟨d.nblocks, by simp [isBad], d.canErase_nblocks⟩

/-- The first block that is not bad and cannot be erased, at the latest the end of the device. -/
def MtdDev.firstFault (d : MtdDev) : Nat := Nat.find d.exists_fault

/-- How many blocks can be written before the first failing erase. -/
def MtdDev.capacity (d : MtdDev) : Nat := (d.goodBelow d.firstFault).length

/-- `n` blocks are written to the devices so that every device that is left behind has no bad
    block before its first failing erase. -/
def CleanHandOvers : List MtdDev → Nat → Prop
  | [], _ => True
  | d :: ds, n =>
    n ≤ d.capacity ∨
      (∀ b < d.firstFault, d.isBad b = false) ∧ CleanHandOvers ds (n - d.capacity)

/-- The first good block that cannot be erased. -/
theorem MtdDev.firstFault_eq (d : MtdDev) {g : Nat} (hgood : d.isBad g = false)
    (hcan : d.canErase g = false) (hlt : ∀ i < g, d.isBad i = false → d.canErase i = true) :
    d.firstFault = g := by
  refine (Nat.find_eq_iff _).mpr ⟨⟨hgood, hcan⟩, fun i hi hfault => ?_⟩
  rw [hlt i hi hfault.1] at hfault
  exact Bool.noConfusion hfault.2

/-- There are no fewer good blocks below a later one. -/
theorem MtdDev.length_goodBelow_mono (d : MtdDev) {b c : Nat} (h : b ≤ c) :
    (d.goodBelow b).length ≤ (d.goodBelow c).length := by
  have hpre : List.range b <+: List.range c :=
    List.prefix_iff_eq_take.mpr (by rw [List.length_range, List.take_range, Nat.min_eq_left h])
  exact (List.IsPrefix.filter _ hpre).length_le

/-- All blocks below are good exactly if none is bad. -/
theorem MtdDev.length_goodBelow_eq_iff (d : MtdDev) (b : Nat) :
    (d.goodBelow b).length = b ↔ ∀ i < b, d.isBad i = false := by
  have h : (d.goodBelow b).length = (List.range b).length ↔ ∀ i ∈ List.range b, !d.isBad i :=
    List.length_filter_eq_length_iff
  simpa using h

/-- No more blocks are written than fit before the first failing erase. -/
private theorem InStep.length_le_capacity {img : List UInt8} {d : MtdDev} {mem0 : Nat → UInt8}
    {k0 b : Nat} {st : St} (h : InStep img d mem0 k0 b st) :
    (d.goodBelow b).length ≤ d.capacity := by
  refine d.length_goodBelow_mono (Nat.le_of_not_lt fun hlt => ?_)
  have hfault := Nat.find_spec d.exists_fault
  have hcan := h.erasable d.firstFault hlt hfault.1
  rw [MtdDev.firstFault, hfault.2] at hcan
  cases hcan

/-- The buffer is handed over at the first fault. -/
private theorem Handed.firstFault_eq {img : List UInt8} {d : MtdDev} {k0 g : Nat} {st : St}
    (h : Handed img d k0 g st) : d.firstFault = g :=
  d.firstFault_eq h.isGood h.cannotErase h.erasable

/-- Bytes were skipped exactly when a bad block lies before the failing one. -/
private theorem Handed.skipBadBlocks_eq_zero_iff {img : List UInt8} {d : MtdDev} {k0 g : Nat}
    {st : St} (h : Handed img d k0 g st) :
    st.skipBadBlocks = 0 ↔ ∀ i < d.firstFault, d.isBad i = false := by
  have hsync := h.sync
  rw [h.firstFault_eq, ← d.length_goodBelow_eq_iff]
  constructor
  · intro h0
    rw [h0, Nat.add_zero] at hsync
    exact (Nat.eq_of_mul_eq_mul_right d.erasesize_pos hsync).symm
  · intro heq
    rw [heq] at hsync
    omega

/-! ### Changes stay in the log -/

/-- A write keeps the log. -/
private theorem Fd.log_subset_write (d : MtdDev) (fd : Fd) (src : Nat → UInt8) (off len : Nat) :
    fd.log ⊆ (fd.write d src off len).1.log := by
  simp only [Fd.write]
  split
  · exact List.Subset.refl _
  · split <;> exact List.subset_append_left _ _

/-- The log has grown and the erase pointer has moved by whole blocks. -/
private def EraseGrows (d : MtdDev) (fd : Fd) (e : Nat) : EraseRes → Prop
  | .ready fd' e' _ => fd.log ⊆ fd'.log ∧ (d.erasesize ∣ e → d.erasesize ∣ e')
  | .failed fd' e' _ => fd.log ⊆ fd'.log ∧ (d.erasesize ∣ e → d.erasesize ∣ e')
  | .exit => True
  | .outOfFuel => True

/-- The rest of the erase loop adds to the log. -/
private theorem EraseGrows.step {d : MtdDev} {fd fd1 : Fd} {e : Nat} {r : EraseRes}
    (hlog : fd.log ⊆ fd1.log) (h : EraseGrows d fd1 (e + d.erasesize) r) : EraseGrows d fd e r := by
  have hdvd : d.erasesize ∣ e → d.erasesize ∣ e + d.erasesize :=
    fun h => Nat.dvd_add h (Nat.dvd_refl _)
  cases r with
  | ready fd' e' skip => exact ⟨List.Subset.trans hlog h.1, fun he => h.2 (hdvd he)⟩
  | failed fd' e' skip => exact ⟨List.Subset.trans hlog h.1, fun he => h.2 (hdvd he)⟩
  | exit => trivial
  | outOfFuel => trivial

/-- Erasing keeps the log. -/
private theorem log_subset_mtdEraseBlock {d : MtdDev} {fd fd1 : Fd} {offset : Nat}
    (h : mtdEraseBlock d fd offset = some fd1) : fd.log ⊆ fd1.log := by
  simp only [mtdEraseBlock, Fd.memErase] at h
  split at h
  · cases h
    exact List.subset_append_left _ _
  · cases h

/-- The erase loop adds to the log. -/
private theorem eraseLoop_grows (cfg : Config) (d : MtdDev) (w buflen fuel e skip : Nat) (fd : Fd) :
    EraseGrows d fd e (eraseLoop cfg d w buflen fuel fd e skip) := by
  induction fuel generalizing fd e skip with
  | zero => trivial
  | succ fuel ih =>
    rw [eraseLoop]
    split
    · cases mtdBlockIsBad d e with
      | none => trivial
      | some bad =>
        cases bad with
        -- a bad block is skipped
        | true => exact (ih _ _ (fd.seekCur d.erasesize)).step (List.Subset.refl _)
        | false =>
          cases her : mtdEraseBlock d fd (e + cfg.partOffset) with
          | none => exact ⟨List.Subset.refl _, id⟩
          | some fd1 => exact (ih _ _ fd1).step (log_subset_mtdEraseBlock her)
    · exact ⟨List.Subset.refl _, id⟩

/-- The log has grown, and `-j` is still off. -/
private def TurnGrows (st : St) : Turn → Prop
  | .again st' => st.fd.log ⊆ st'.fd.log ∧ st'.skip = 0 ∧ st'.jffs2file = false
  | .done st' => st.fd.log ⊆ st'.fd.log ∧ st'.skip = 0 ∧ st'.jffs2file = false
  | .resume st' => st.fd.log ⊆ st'.fd.log ∧ st'.skip = 0 ∧ st'.jffs2file = false
  | .exit => True
  | .outOfFuel => True

/-- Handing over adds to the log. -/
private theorem handOver_grows (cfg : Config) (d : MtdDev) (next : Bool) (st : St)
    (hskip : st.skip = 0) (hjffs2 : st.jffs2file = false) :
    TurnGrows st (handOver cfg d next st) := by
  unfold handOver
  split
  · split
    · exact ⟨Fd.log_subset_write _ _ _ _ _, hskip, hjffs2⟩
    · exact ⟨List.Subset.refl _, hskip, hjffs2⟩
  · trivial

/-- Writing a block adds to the log. -/
private theorem writeBlock_grows (cfg : Config) (d : MtdDev) (st : St)
    (hskip : st.skip = 0) (hjffs2 : st.jffs2file = false) :
    TurnGrows st (writeBlock cfg d st) := by
  simp only [writeBlock]
  split
  · trivial
  · exact ⟨Fd.log_subset_write _ _ _ _ _, hskip, hjffs2⟩

/-- A turn that starts from more of a log. -/
private theorem TurnGrows.of_subset {st st1 : St} {t : Turn} (hlog : st.fd.log ⊆ st1.fd.log)
    (h : TurnGrows st1 t) : TurnGrows st t := by
  cases t with
  | again st' => exact ⟨List.Subset.trans hlog h.1, h.2⟩
  | done st' => exact ⟨List.Subset.trans hlog h.1, h.2⟩
  | resume st' => exact ⟨List.Subset.trans hlog h.1, h.2⟩
  | exit => trivial
  | outOfFuel => trivial

/-- Erasing and writing adds to the log. -/
private theorem eraseAndWrite_grows (cfg : Config) (d : MtdDev) (next : Bool) (st : St)
    (hskip : st.skip = 0) (hjffs2 : st.jffs2file = false) :
    TurnGrows st (eraseAndWrite cfg d next st) := by
  -- erasing only adds to the log
  have hgrow : EraseGrows d st.fd st.e (eraseAhead cfg d st) := by
    unfold eraseAhead
    split
    · exact ⟨List.Subset.refl _, id⟩
    · exact eraseLoop_grows ..
  unfold eraseAndWrite
  cases heq : eraseAhead cfg d st with
  | exit => trivial
  | outOfFuel => trivial
  | failed fd e skip =>
    rw [heq] at hgrow
    exact TurnGrows.of_subset hgrow.1 (handOver_grows cfg d next _ hskip hjffs2)
  | ready fd e skip =>
    rw [heq] at hgrow
    exact TurnGrows.of_subset hgrow.1 (writeBlock_grows cfg d _ hskip hjffs2)

/-- A turn adds to the log. -/
private theorem writeTurn_grows (cfg : Config) (d : MtdDev) (next : Bool) (st : St)
    (hskip : st.skip = 0) (hjffs2 : st.jffs2file = false) :
    TurnGrows st (writeTurn cfg d next st) := by
  simp only [writeTurn]
  split
  · exact ⟨List.Subset.refl _, hskip, hjffs2⟩
  · rw [handleBlock_eq]
    · exact eraseAndWrite_grows cfg d next _ hskip hjffs2
    · exact hskip
    · exact hjffs2

/-- The loop adds to the log. -/
private theorem writeLoop_grows (cfg : Config) (d : MtdDev) (next : Bool) (fuel : Nat) (st : St)
    (hskip : st.skip = 0) (hjffs2 : st.jffs2file = false) :
    TurnGrows st (writeLoop cfg d next fuel st) := by
  induction fuel generalizing st with
  | zero => trivial
  | succ fuel ih =>
    have hturn := writeTurn_grows cfg d next st hskip hjffs2
    rw [writeLoop]
    cases ht : writeTurn cfg d next st with
    | again st' =>
      rw [ht] at hturn
      exact (ih st' hturn.2.1 hturn.2.2).of_subset hturn.1
    | done st' => rw [ht] at hturn; exact hturn
    | resume st' => rw [ht] at hturn; exact hturn
    | exit => trivial
    | outOfFuel => trivial

/-! ### After a hand-over with skipped bad blocks -/

/-- The buffer is full and `offset` points behind it, as after such a hand-over. -/
structure OffsetOutside (es : Nat) (st : St) : Prop where
  length_buf : st.buf.length = es
  le_offset : es ≤ st.offset
  skip_eq : st.skip = 0
  jffs2file_eq : st.jffs2file = false

/-- The first block on the next device is written from behind the buffer, or the buffer moves on
    with an offset that is still behind it. -/
private def FirstOutside (es : Nat) : Turn → Prop
  | .again st' => WroteOutside es st'.fd ∧ st'.skip = 0 ∧ st'.jffs2file = false
  | .done _ => False
  | .resume st' => OffsetOutside es st'
  | .exit => True
  | .outOfFuel => True

/-- From an offset behind the buffer the first write is from outside. -/
private theorem eraseAndWrite_outside (cfg : Config) (d : MtdDev) (next : Bool) (st : St)
    (h : OffsetOutside d.erasesize st) (hw : st.w = 0) (he : d.erasesize ∣ st.e) :
    FirstOutside d.erasesize (eraseAndWrite cfg d next st) := by
  have hes := d.erasesize_pos
  have hgrow : EraseGrows d st.fd st.e (eraseAhead cfg d st) := by
    unfold eraseAhead
    split
    · exact ⟨List.Subset.refl _, id⟩
    · exact eraseLoop_grows ..
  unfold eraseAndWrite
  cases heq : eraseAhead cfg d st with
  | exit => trivial
  | outOfFuel => trivial
  | failed fd e skip =>
    rw [heq] at hgrow
    dsimp only [handOver]
    -- with no further device the error ends the run, nothing is written
    cases next with
    | false => trivial
    | true =>
      simp only [↓reduceIte, hw]
      -- the handed over state still has an offset of a block or more
      by_cases hpos : 0 < e
      · rw [if_pos hpos]
        exact ⟨h.length_buf, Nat.le_of_dvd hpos (hgrow.2 he), h.skip_eq, h.jffs2file_eq⟩
      · rw [if_neg hpos]
        exact ⟨h.length_buf, h.le_offset, h.skip_eq, h.jffs2file_eq⟩
  | ready fd e skip =>
    dsimp only [writeBlock]
    by_cases hres : (fd.write d (bufByte cfg st.buf) st.offset st.buf.length).2 < st.buf.length
    · rw [if_pos hres]; trivial
    · rw [if_neg hres]
      have hoff := h.le_offset
      have hlen := h.length_buf
      refine ⟨⟨fd.pos, st.offset, st.buf.length, ?_, by omega⟩, h.skip_eq, h.jffs2file_eq⟩
      -- a result of at least `buflen` means that all of the buffer was stored
      simp only [Fd.write] at hres ⊢
      split at hres
      · omega
      · rename_i hsize
        split at hres
        · omega
        · rename_i hfault
          have hmin : min st.buf.length (d.size - fd.pos) = st.buf.length := by omega
          simp only [if_neg hsize, Fd.store, hmin]
          exact List.mem_append_right _ (List.mem_singleton_self _)

/-- The first turn on the next device. -/
private theorem writeTurn_outside (cfg : Config) (d : MtdDev) (next : Bool) (st : St)
    (h : OffsetOutside d.erasesize st) (hw : st.w = 0) (he : d.erasesize ∣ st.e) :
    FirstOutside d.erasesize (writeTurn cfg d next st) := by
  have hes := d.erasesize_pos
  have hlen := h.length_buf
  have hpad : padBlock d.erasesize st.buf = st.buf := by simp [padBlock, hlen]
  simp only [writeTurn, fillBuf_of_full _ _ _ _ hlen]
  rw [if_neg (by omega), hpad, handleBlock_eq]
  · exact eraseAndWrite_outside cfg d next st h hw he
  · exact h.skip_eq
  · exact h.jffs2file_eq

/-- A run that returns has ended on the first device or gone on after a hand-over. -/
theorem writeFrom_returned {cfg : Config} {t : Target} {ts : List Target} {st : St}
    {fds : List Fd} (hret : writeFrom cfg (t :: ts) st = .returned fds) :
    ∃ st', (writeLoop cfg t.1 (!ts.isEmpty) (st.rest.length + 2)
        { st with fd := openTarget cfg t, w := 0, e := 0 } = .done st' ∧ fds = [st'.fd]) ∨
      (writeLoop cfg t.1 (!ts.isEmpty) (st.rest.length + 2)
        { st with fd := openTarget cfg t, w := 0, e := 0 } = .resume st' ∧
        ∃ fds', writeFrom cfg ts st' = .returned fds' ∧ fds = st'.fd :: fds') := by
  rw [writeFrom] at hret
  split at hret
  -- the write ends on this device
  · rename_i st' heq
    cases hret
    exact ⟨st', Or.inl ⟨heq, rfl⟩⟩
  · rename_i st' heq
    refine ⟨st', Or.inr ⟨heq, ?_⟩⟩
    cases hrest : writeFrom cfg ts st' with
    | returned fds' =>
      rw [hrest] at hret
      cases hret
      exact ⟨fds', rfl, rfl⟩
    | exited => rw [hrest] at hret; cases hret
    | outOfFuel => rw [hrest] at hret; cases hret
  all_goals cases hret

/-- On the next device the run ends after a write from behind the buffer, or hands the buffer on
    after one, or with an offset that is still behind it. -/
private theorem writeLoop_outside (cfg : Config) (d : MtdDev) (next : Bool) (fuel : Nat) (st : St)
    (h : OffsetOutside d.erasesize st) (hw : st.w = 0) (he : d.erasesize ∣ st.e) (st' : St) :
    (writeLoop cfg d next (fuel + 1) st = .done st' → WroteOutside d.erasesize st'.fd) ∧
    (writeLoop cfg d next (fuel + 1) st = .resume st' →
      WroteOutside d.erasesize st'.fd ∨ OffsetOutside d.erasesize st') := by
  have hfirst := writeTurn_outside cfg d next st h hw he
  rw [writeLoop]
  -- only the first turn matters: it wrote from behind the buffer, or hands the offset on
  cases hturn : writeTurn cfg d next st with
  | again st1 =>
    rw [hturn] at hfirst
    obtain ⟨⟨pos, off, len, hmem, hlt⟩, hskip, hjffs2⟩ := hfirst
    have hgrow := writeLoop_grows cfg d next fuel st1 hskip hjffs2
    constructor
    · intro heq
      rw [show writeLoop cfg d next fuel st1 = .done st' from heq] at hgrow
      exact ⟨pos, off, len, hgrow.1 hmem, hlt⟩
    · intro heq
      rw [show writeLoop cfg d next fuel st1 = .resume st' from heq] at hgrow
      exact Or.inl ⟨pos, off, len, hgrow.1 hmem, hlt⟩
  | done st1 => rw [hturn] at hfirst; exact hfirst.elim
  | resume st1 =>
    rw [hturn] at hfirst
    refine ⟨fun h => (by cases h), fun heq => ?_⟩
    cases heq
    exact Or.inr hfirst
  | exit => exact ⟨fun h => (by cases h), fun h => (by cases h)⟩
  | outOfFuel => exact ⟨fun h => (by cases h), fun h => (by cases h)⟩

/-- A run that returns after such a hand-over has written from behind the buffer. -/
theorem writeFrom_outside (cfg : Config) (es : Nat) (ts : List Target) (st : St)
    (fds : List Fd) (hts : ∀ t ∈ ts, t.1.erasesize = es) (h : OffsetOutside es st)
    (hret : writeFrom cfg ts st = .returned fds) : ∃ fd ∈ fds, WroteOutside es fd := by
  induction ts generalizing st fds with
  | nil => cases hret
  | cons t ts ih =>
    have ht : t.1.erasesize = es := hts t (List.mem_cons_self ..)
    obtain ⟨st', hst'⟩ := writeFrom_returned hret
    have hloop := writeLoop_outside cfg t.1 (!ts.isEmpty) (st.rest.length + 1)
      { st with fd := openTarget cfg t, w := 0, e := 0 }
      ⟨h.length_buf.trans ht.symm, by rw [ht]; exact h.le_offset, h.skip_eq, h.jffs2file_eq⟩
      rfl (Nat.dvd_zero _) st'
    rw [ht] at hloop
    rcases hst' with ⟨hdone, rfl⟩ | ⟨hresume, fds', hrest, rfl⟩
    · exact ⟨st'.fd, List.mem_singleton_self _, hloop.1 hdone⟩
    -- the write was outside on this device, or the next one starts with an offset outside the
    -- block
    · rcases hloop.2 hresume with hout | hoff
      · exact ⟨st'.fd, List.mem_cons_self .., hout⟩
      · obtain ⟨fd, hfd, hout⟩ := ih st' fds' (fun t ht => hts t (List.mem_cons_of_mem _ ht))
          hoff hrest
        exact ⟨fd, List.mem_cons_of_mem _ hfd, hout⟩

/-! ### The image over all devices -/

/-- What was written to blocks that each were erased and written. -/
private theorem written_of_blockOps {es : Nat} {fd : Fd} {gs : List Nat}
    (hlog : fd.log = gs.flatMap (blockOps es)) : fd.written = gs.flatMap (readBlock es fd.mem) := by
  rw [Fd.written, hlog, List.flatMap_assoc]
  apply List.flatMap_congr
  intro g _
  simp [blockOps, Op.contents, readBlock]

/-- What a device in good order contributes to the image. -/
private structure Contribution (es : Nat) (img : List UInt8) (d : MtdDev) (k n : Nat) (fd : Fd) :
    Prop where
  inBuffer : ¬WroteOutside es fd
  goodBlocks : WritesGoodBlocks es d fd
  contents : fd.written = (List.range' k n).flatMap (chunk es 0xff img)

/-- What a device with its chunks in order adds. -/
private theorem contribution_of_blocks {img : List UInt8} {d : MtdDev} {k b : Nat} {fd : Fd}
    (hlog : fd.log = (d.goodBelow b).flatMap (blockOps d.erasesize))
    (hstored : (d.goodBelow b).map (readBlock d.erasesize fd.mem) =
      (List.range' k (d.goodBelow b).length).map (chunk d.erasesize 0xff img)) :
    Contribution d.erasesize img d k (d.goodBelow b).length fd := by
  -- every write is of one whole good block
  have hmem : ∀ pos off len, Op.write pos off len ∈ fd.log →
      off = 0 ∧ len = d.erasesize ∧ ∃ g, pos = g * d.erasesize ∧ d.isBad g = false := by
    intro pos off len h
    rw [hlog] at h
    obtain ⟨g, hg, hop⟩ := List.mem_flatMap.mp h
    simp only [blockOps, List.mem_cons, Op.write.injEq, List.not_mem_nil, or_false,
      reduceCtorEq, false_or] at hop
    exact ⟨hop.2.1, hop.2.2, g, hop.1, ((d.mem_goodBelow b g).mp hg).2⟩
  refine ⟨?_, fun pos off len h => (hmem pos off len h).2, ?_⟩
  · rintro ⟨pos, off, len, h, hlt⟩
    obtain ⟨rfl, rfl, _⟩ := hmem pos off len h
    omega
  · rw [written_of_blockOps hlog, List.flatMap_def, hstored, ← List.flatMap_def]

/-- A run over the devices that starts with chunk `k` and returns: with clean hand-overs the rest
    of the image is written in order, otherwise something was written from behind the buffer. -/
private theorem writeFrom_spec (cfg : Config) (hpart : cfg.partOffset = 0)
    (herase : cfg.noErase = false) (es : Nat) (img : List UInt8) (ts : List Target) (k : Nat)
    (st : St) (fds : List Fd) (hts : ∀ t ∈ ts, t.1.erasesize = es)
    (hp : Pending es img k st.buf st.rest) (hk : k ≤ numChunks es img)
    (herr : ReadRes.error ∉ st.script) (hoff : st.offset = 0) (hskip : st.skip = 0)
    (hjffs2 : st.jffs2file = false) (hbad : st.skipBadBlocks = 0)
    (hret : writeFrom cfg ts st = .returned fds) :
    (CleanHandOvers (ts.map Prod.fst) (numChunks es img - k) ∧ (∀ fd ∈ fds, ¬WroteOutside es fd) ∧
      (∀ p ∈ ts.zip fds, WritesGoodBlocks es p.1.1 p.2) ∧
      fds.flatMap Fd.written =
        (List.range' k (numChunks es img - k)).flatMap (chunk es 0xff img)) ∨
    (¬CleanHandOvers (ts.map Prod.fst) (numChunks es img - k) ∧
      ∃ fd ∈ fds, WroteOutside es fd) := by
  -- `k` is the number of chunks the devices before have stored
  induction ts generalizing k st fds with
  | nil => cases hret
  | cons t ts ih =>
    obtain rfl : t.1.erasesize = es := hts t (List.mem_cons_self ..)
    have hes := t.1.erasesize_pos
    have hin := inStep_open cfg hpart img t k st hp hk herr hoff hskip hjffs2 hbad
    have hspec := writeLoop_spec cfg hpart herase (!ts.isEmpty) (st.rest.length + 2) hin
      (by simp only [turnsLeft]; split <;> omega)
    obtain ⟨st', ⟨hdone, rfl⟩ | ⟨hresume, fds', hrest, rfl⟩⟩ := writeFrom_returned hret
    · -- the image ends on this device
      rw [hdone] at hspec
      obtain ⟨b, st1, h1, hfd, hall⟩ := hspec
      have hn : numChunks t.1.erasesize img - k = (t.1.goodBelow b).length := by
        have hle := h1.le_numChunks
        have hge := (numChunks_le_iff _ hes _ _).mpr hall
        omega
      have hc : Contribution t.1.erasesize img t.1 k (t.1.goodBelow b).length st'.fd := by
        rw [hfd]; exact contribution_of_blocks h1.log_eq h1.stored
      left
      rw [hn]
      exact ⟨Or.inl h1.length_le_capacity, by simpa using hc.inBuffer,
        by simpa using hc.goodBlocks, by simpa using hc.contents⟩
    · -- an erase failed and the buffer was handed over
      rw [hresume] at hspec
      obtain ⟨-, g, hg⟩ := hspec
      have hcap : t.1.capacity = (t.1.goodBelow g).length := by
        rw [MtdDev.capacity, hg.firstFault_eq]
      have hlt := (lt_numChunks_iff _ hes _ _).mpr hg.loaded.lt_length
      have hts' : ∀ t' ∈ ts, t'.1.erasesize = t.1.erasesize :=
        fun t' ht' => hts t' (List.mem_cons_of_mem _ ht')
      have hclean : CleanHandOvers ((t :: ts).map Prod.fst) (numChunks t.1.erasesize img - k) ↔
          st'.skipBadBlocks = 0 ∧ CleanHandOvers (ts.map Prod.fst)
            (numChunks t.1.erasesize img - (k + (t.1.goodBelow g).length)) := by
        rw [List.map_cons, CleanHandOvers, hg.skipBadBlocks_eq_zero_iff, hcap, Nat.sub_sub]
        exact or_iff_right (by omega)
      -- the next device starts at offset 0 only when this one skipped no bad block
      by_cases h0 : st'.skipBadBlocks = 0
      · obtain ⟨hoff', hlog, hstored⟩ := hg.clean h0
        have hc := contribution_of_blocks hlog hstored
        rw [hclean, List.flatMap_cons, hc.contents]
        rcases ih _ st' fds' hts' hg.loaded.pending (by omega) hg.noError hoff' hg.skip_eq
          hg.jffs2file_eq h0 hrest with ⟨hcl, hin', hgood, hcont⟩ | ⟨hncl, fd, hfd, hout⟩
        · left
          refine ⟨⟨h0, hcl⟩, ?_, ?_, ?_⟩
          · exact List.forall_mem_cons.mpr ⟨hc.inBuffer, hin'⟩
          · rw [List.zip_cons_cons]
            exact List.forall_mem_cons.mpr ⟨hc.goodBlocks, hgood⟩
          · rw [hcont, ← List.flatMap_append, List.range'_append_1]
            congr 2
            omega
        · exact Or.inr ⟨fun h => hncl h.2, fd, List.mem_cons_of_mem _ hfd, hout⟩
      · obtain ⟨fd, hfd, hout⟩ := writeFrom_outside cfg t.1.erasesize ts st' fds' hts'
          ⟨hg.loaded.length_buf, hg.dirty h0, hg.skip_eq, hg.jffs2file_eq⟩ hrest
        exact Or.inr ⟨fun h => h0 (hclean.mp h).1, fd, List.mem_cons_of_mem _ hfd, hout⟩

/-- `mtd_write` to `d1:d2:...` with one erase size, erase enabled and no jffs2 file, when it
    returns 0: the image is spread over the devices in order exactly when no device was left
    behind with a bad block before its first failing erase. -/
theorem mtdWrite_spread_iff (cfg : Config) (hpart : cfg.partOffset = 0)
    (herase : cfg.noErase = false) (es : Nat) (hes : 0 < es) (ts : List Target)
    (hts : ∀ t ∈ ts, t.1.erasesize = es) (img : Image) (hbuf : img.buf.length ≤ es)
    (herr : ReadRes.error ∉ img.script) (fds : List Fd)
    (hret : mtdWrite cfg false ts img = .returned fds) :
    Spread es img.bytes ts fds ↔
      CleanHandOvers (ts.map Prod.fst) (numChunks es img.bytes) := by
  have h := writeFrom_spec cfg hpart herase es img.bytes ts 0 _ fds hts
    (pending_image es img hbuf) (Nat.zero_le _) herr rfl rfl rfl rfl hret
  rw [Nat.sub_zero, ← List.range_eq_range', flatMap_chunk_numChunks es hes] at h
  rcases h with ⟨hclean, hin, hgood, hcont⟩ | ⟨hnclean, fd, hfd, hout⟩
  · exact ⟨fun _ => hclean, fun _ => ⟨hin, hgood, hcont⟩⟩
  · exact ⟨fun hs => absurd hout (hs.inBuffer fd hfd), fun h => absurd h hnclean⟩

/-! ### A NAND device with a bad block is left behind -/

/-- A run with logs has returned. -/
theorem returned_of_logs {o : Outcome} {logs : List (List Op)} (h : o.logs = some logs) :
    ∃ fds, o = .returned fds ∧ fds.map Fd.log = logs := by
  cases o with
  | returned fds => exact ⟨fds, rfl, Option.some.inj h⟩
  | exited => cases h
  | outOfFuel => cases h

/-- A NAND device whose first block is bad and whose last one is worn out. -/
def wornNand : MtdDev := threeBlocks .nandflash (· == 0) (· == 2)

/-- A NAND device of three good blocks. -/
def spareNand : MtdDev := threeBlocks .nandflash (fun _ => false) fun _ => false

/-- Four bytes to `wornNand:spareNand`. -/
def wornRun : Outcome :=
  mtdWrite plainConfig false [(wornNand, fun _ => 0), (spareNand, fun _ => 0)] ⟨[], [1, 2, 3, 4], []⟩

/-- The second chunk goes to the block that could not be erased, and to the next device go the two
    bytes behind the buffer. -/
private theorem wornRun_logs :
    wornRun.logs = some [[.erase 2, .write 2 0 2, .write 4 0 2],
      [.erase 0, .erase 2, .write 0 2 2]] := by decide

/-- The run returns 0 although the image is not spread over the devices. -/
theorem wornRun_not_spread :
    ∃ fds, wornRun = .returned fds ∧
      ¬Spread 2 [1, 2, 3, 4] [(wornNand, fun _ => 0), (spareNand, fun _ => 0)] fds := by
  obtain ⟨fds, hret, hlogs⟩ := returned_of_logs wornRun_logs
  refine ⟨fds, hret, fun h => ?_⟩
  have hmem : [Op.erase 0, .erase 2, .write 0 2 2] ∈ fds.map Fd.log := by rw [hlogs]; simp
  obtain ⟨fd, hfd, hlog⟩ := List.mem_map.mp hmem
  exact h.inBuffer fd hfd ⟨0, 2, 2, by rw [hlog]; simp, by decide⟩

/-- A device that is not NAND. -/
def smallNor : MtdDev := threeBlocks .other (fun _ => false) fun _ => false

/-- Seven bytes to two such devices. -/
theorem mtdWrite_spread_iff_smallNor :
    ∃ fds, mtdWrite plainConfig false [(smallNor, fun _ => 0), (smallNor, fun _ => 0)]
        ⟨[1], [2, 3, 4, 5, 6, 7], [.eintr]⟩ = .returned fds ∧
      (Spread 2 [1, 2, 3, 4, 5, 6, 7] [(smallNor, fun _ => 0), (smallNor, fun _ => 0)] fds ↔
        CleanHandOvers [smallNor, smallNor] 4) := by
  have hlogs : (mtdWrite plainConfig false [(smallNor, fun _ => 0), (smallNor, fun _ => 0)]
      ⟨[1], [2, 3, 4, 5, 6, 7], [.eintr]⟩).logs =
        some [[.erase 0, .write 0 0 2, .erase 2,
          .write 2 0 2, .erase 4, .write 4 0 2], [.erase 0, .write 0 0 2]] := by
    decide
  obtain ⟨fds, hret, -⟩ := returned_of_logs hlogs
  exact ⟨fds, hret, mtdWrite_spread_iff plainConfig rfl rfl 2 (by decide)
    [(smallNor, fun _ => 0), (smallNor, fun _ => 0)] (by decide) ⟨[1], [2, 3, 4, 5, 6, 7], [.eintr]⟩
    (by decide) (by decide) fds hret⟩

end HandsomeMod.Native.Mtd
