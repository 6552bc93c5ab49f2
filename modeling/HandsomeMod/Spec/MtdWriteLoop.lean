import HandsomeMod.ForStd.Chunk
import HandsomeMod.Spec.MtdEraseLoop

/-!
# The `for (;;)` loop of `mtd_write`

The invariant `InStep` ties the three cursors of the loop together on one device: all blocks below
`b` have been dealt with, the good ones among them hold the chunks of the image in order, and file
position, erase pointer and `w + skip_bad_blocks` are all at block `b`. One turn of the loop either
moves to a later `b`, or ends the loop in a state that `TurnSpec` describes.
-/

namespace HandsomeMod.Native.Mtd

open HandsomeMod.ForStd

/-! ### Filling the buffer -/

/-- Reading moves bytes from the image to the buffer and loses none. -/
theorem fillBuf_append (es : Nat) (script : List ReadRes) (rest buf : List UInt8) :
    (fillBuf es script rest buf).1 ++ (fillBuf es script rest buf).2.1 = buf ++ rest := by
  induction script generalizing rest buf with
  | nil => simp [fillBuf_nil]
  | cons r script ih =>
    unfold fillBuf
    split
    · cases r with
      -- an interrupted read is repeated, an error ends the fill
      | eintr => exact ih rest buf
      | eagain => exact ih rest buf
      | error => rfl
      | short n =>
        cases rest with
        | nil => rfl
        | cons b rest => simp only [ih, List.append_assoc, List.cons_append, List.take_append_drop]
    · rfl

/-- The buffer does not grow over a block. -/
theorem fillBuf_length_le (es : Nat) (script : List ReadRes) (rest buf : List UInt8)
    (hbuf : buf.length ≤ es) : (fillBuf es script rest buf).1.length ≤ es := by
  induction script generalizing rest buf with
  | nil => simp only [fillBuf_nil, List.length_append, List.length_take]; omega
  | cons r script ih =>
    unfold fillBuf
    split
    · cases r with
      | eintr => exact ih rest buf hbuf
      | eagain => exact ih rest buf hbuf
      | error => exact hbuf
      | short n =>
        cases rest with
        | nil => exact hbuf
        | cons b rest =>
          -- a read returns no more than was asked for, which is the room left
          apply ih
          simp only [List.length_append, List.length_cons, List.length_take]
          omega
    · exact hbuf

/-- Without read errors the buffer gets full unless the image ends. -/
private theorem fillBuf_full (es : Nat) (script : List ReadRes) (rest buf : List UInt8)
    (hbuf : buf.length ≤ es) (herr : ReadRes.error ∉ script) :
    (fillBuf es script rest buf).1.length = es ∨ (fillBuf es script rest buf).2.1 = [] := by
  -- a short read leaves the loop only with a full buffer or at the end of the image
  induction script generalizing rest buf with
  | nil =>
    simp only [fillBuf, List.length_append, List.length_take, List.drop_eq_nil_iff]
    omega
  | cons r script ih =>
    have herr' : ReadRes.error ∉ script := fun h => herr (List.mem_cons_of_mem _ h)
    unfold fillBuf
    split
    · cases r with
      | eintr => exact ih rest buf hbuf herr'
      | eagain => exact ih rest buf hbuf herr'
      | error => exact absurd (List.mem_cons_self ..) herr
      | short n =>
        cases rest with
        | nil => exact Or.inr rfl
        | cons b rest =>
          refine ih _ _ ?_ herr'
          simp only [List.length_append, List.length_cons, List.length_take]
          omega
    · exact Or.inl (by dsimp only; omega)

/-- What is left of the reads is a part of them. -/
private theorem fillBuf_script_subset (es : Nat) (script : List ReadRes) (rest buf : List UInt8) :
    (fillBuf es script rest buf).2.2 ⊆ script := by
  induction script generalizing rest buf with
  | nil => simp [fillBuf_nil]
  | cons r script ih =>
    unfold fillBuf
    split
    · cases r with
      | eintr => exact List.subset_cons_of_subset _ (ih rest buf)
      | eagain => exact List.subset_cons_of_subset _ (ih rest buf)
      | error => exact List.subset_cons_of_subset _ (List.Subset.refl _)
      | short n =>
        cases rest with
        | nil => exact List.subset_cons_of_subset _ (List.Subset.refl _)
        | cons b rest => exact List.subset_cons_of_subset _ (ih _ _)
    · exact List.Subset.refl _

/-- A full buffer is left alone, as after a hand-over. -/
theorem fillBuf_of_full (es : Nat) (script : List ReadRes) (rest buf : List UInt8)
    (hbuf : buf.length = es) : fillBuf es script rest buf = (buf, rest, script) := by
  cases script with
  | nil => simp [fillBuf, hbuf]
  | cons r script => rw [fillBuf.eq_def]; exact if_neg (by omega)

/-- What was read and what is left are the image. -/
theorem fillBuf_rest_length (es : Nat) (script : List ReadRes) (rest buf : List UInt8) :
    (fillBuf es script rest buf).2.1.length + (fillBuf es script rest buf).1.length =
      rest.length + buf.length := by
  have h := congrArg List.length (fillBuf_append es script rest buf)
  simp only [List.length_append] at h
  omega

/-- What is left does not grow. -/
private theorem fillBuf_rest_le (es : Nat) (script : List ReadRes) (rest buf : List UInt8) :
    (fillBuf es script rest buf).2.1.length ≤ rest.length := by
  induction script generalizing rest buf with
  | nil => simp [fillBuf_nil]
  | cons r script ih =>
    unfold fillBuf
    split
    · cases r with
      | eintr => exact ih rest buf
      | eagain => exact ih rest buf
      | error => exact Nat.le_refl _
      | short n =>
        cases rest with
        | nil => exact Nat.le_refl _
        | cons b rest =>
          -- what a read delivers is gone from the file
          refine Nat.le_trans (ih _ _) ?_
          rw [List.length_drop, List.length_cons]
          omega
    · exact Nat.le_refl _

/-! ### The part of the image that is still to be written -/

/-- `buf` and `rest` hold the image from chunk `k` on. After a hand-over the chunk is in the buffer
    with its padding. -/
def Pending (es : Nat) (img : List UInt8) (k : Nat) (buf rest : List UInt8) : Prop :=
  (buf ++ rest = img.drop (k * es) ∧ buf.length ≤ es) ∨
    (buf = chunk es 0xff img k ∧ rest = img.drop ((k + 1) * es) ∧ k * es < img.length)

/-- `buf` is chunk `k`, padded, and `rest` what follows it. -/
structure Loaded (es : Nat) (img : List UInt8) (k : Nat) (buf rest : List UInt8) : Prop where
  buf_eq : buf = chunk es 0xff img k
  rest_eq : rest = img.drop ((k + 1) * es)
  lt_length : k * es < img.length

/-- A loaded chunk is pending. -/
theorem Loaded.pending {es k : Nat} {img buf rest : List UInt8} (h : Loaded es img k buf rest) :
    Pending es img k buf rest :=
  Or.inr ⟨h.buf_eq, h.rest_eq, h.lt_length⟩

/-- A loaded chunk fills the buffer. -/
theorem Loaded.length_buf {es k : Nat} {img buf rest : List UInt8}
    (h : Loaded es img k buf rest) : buf.length = es := by
  rw [h.buf_eq, length_chunk]

/-- After the block has been written the next chunk is pending, with an empty buffer. -/
theorem Loaded.next {es k : Nat} {img buf rest : List UInt8} (h : Loaded es img k buf rest) :
    Pending es img (k + 1) [] rest :=
  Or.inl ⟨h.rest_eq, Nat.zero_le _⟩

/-- Filling and padding the buffer loads the next chunk, unless the image is written. -/
theorem Pending.fill {es k : Nat} {img buf rest : List UInt8} (h : Pending es img k buf rest)
    (hes : 0 < es) (script : List ReadRes) (herr : ReadRes.error ∉ script) :
    ((fillBuf es script rest buf).1 = [] ∧ img.length ≤ k * es) ∨
      ((fillBuf es script rest buf).1 ≠ [] ∧
        Loaded es img k (padBlock es (fillBuf es script rest buf).1)
          (fillBuf es script rest buf).2.1) := by
  -- the buffer is empty or part of a block, or it holds the whole block a device has handed over
  rcases h with ⟨happ, hlen⟩ | ⟨hbuf, hrest, hlt⟩
  · have happ' := (fillBuf_append es script rest buf).trans happ
    have hle := fillBuf_length_le es script rest buf hlen
    have hfull := fillBuf_full es script rest buf hlen herr
    generalize fillBuf es script rest buf = p at happ' hle hfull ⊢
    obtain ⟨b, r, s⟩ := p
    simp only at happ' hle hfull ⊢
    have hlenb : b.length + r.length = img.length - k * es := by
      rw [← List.length_append, happ', List.length_drop]
    cases hb : b with
    | nil =>
      left
      subst hb
      rcases hfull with h0 | rfl
      · simp only [List.length_nil] at h0; omega
      · simp only [List.length_nil] at hlenb
        exact ⟨rfl, by omega⟩
    | cons x xs =>
      right
      rw [← hb]
      have hpos : 0 < b.length := by rw [hb]; simp
      refine ⟨by rw [hb]; simp, ?_, ?_, by omega⟩
      · rcases hfull with hfl | rfl
        · -- a whole block was read
          rw [padBlock, hfl, Nat.sub_self, List.replicate_zero, List.append_nil,
            chunk_eq_take _ _ _ _ (by omega), ← happ', ← hfl, List.take_left]
        · -- the image ended inside this block
          rw [List.append_nil] at happ'
          rw [chunk_eq_append _ _ _ _ (by simp only [List.length_nil] at hlenb; omega), padBlock,
            happ']
      · rw [Nat.succ_mul, ← List.drop_drop, ← happ']
        rcases hfull with hfl | rfl
        · rw [← hfl, List.drop_left]
        · rw [List.append_nil, List.drop_eq_nil_of_le hle]
  -- the block is whole already, so nothing is read
  · have hl : buf.length = es := by rw [hbuf, length_chunk]
    rw [fillBuf_of_full _ _ _ _ hl]
    right
    refine ⟨fun h0 => ?_, ?_, hrest, hlt⟩
    · simp only at h0
      rw [h0, List.length_nil] at hl
      omega
    · rw [padBlock, hl, Nat.sub_self, List.replicate_zero, List.append_nil, hbuf]

/-! ### Good blocks and their contents -/

/-- The blocks below `b` that are not bad, in order. -/
def MtdDev.goodBelow (d : MtdDev) (b : Nat) : List Nat :=
  (List.range b).filter fun i => !d.isBad i

/-- The contents of block `b`. -/
def readBlock (es : Nat) (mem : Nat → UInt8) (b : Nat) : List UInt8 :=
  (List.range es).map fun j => mem (b * es + j)

/-- Erase block `b`, then write it from the start of the buffer. -/
def blockOps (es b : Nat) : List Op := [.erase (b * es), .write (b * es) 0 es]

/-- The good blocks below a block. -/
theorem MtdDev.mem_goodBelow (d : MtdDev) (b i : Nat) :
    i ∈ d.goodBelow b ↔ i < b ∧ d.isBad i = false := by
  simp [goodBelow]

/-- Bad blocks do not add to the good ones. -/
theorem MtdDev.goodBelow_of_bad (d : MtdDev) {b g : Nat} (hbg : b ≤ g)
    (hbad : ∀ i, b ≤ i → i < g → d.isBad i = true) : d.goodBelow g = d.goodBelow b := by
  induction g with
  | zero => rw [Nat.le_zero.mp hbg]
  | succ g ih =>
    rcases Nat.eq_or_lt_of_le hbg with rfl | hlt
    · rfl
    · have hg := hbad g (by omega) (by omega)
      rw [← ih (by omega) fun i hi hig => hbad i hi (by omega)]
      simp [goodBelow, List.range_succ, hg]

/-- The next good block. -/
theorem MtdDev.goodBelow_succ (d : MtdDev) {b g : Nat} (hbg : b ≤ g)
    (hbad : ∀ i, b ≤ i → i < g → d.isBad i = true) (hg : d.isBad g = false) :
    d.goodBelow (g + 1) = d.goodBelow b ++ [g] := by
  rw [← d.goodBelow_of_bad hbg hbad]
  simp [goodBelow, List.range_succ, hg]

/-- The device after the buffer `data` was written to the freshly erased block `g`. -/
def Fd.programmed (d : MtdDev) (fd : Fd) (g : Nat) (src : Nat → UInt8) : Fd :=
  (fd.erased d g).store src 0 d.erasesize

/-- Writing a block is logged. -/
theorem Fd.log_programmed (d : MtdDev) (fd : Fd) (g : Nat) (src : Nat → UInt8) :
    (fd.programmed d g src).log = fd.log ++ blockOps d.erasesize g := by
  simp [programmed, store, erased, blockOps]

/-- Two different blocks share no byte. -/
private theorem block_disjoint {es b g j : Nat} (hbg : b ≠ g) (hj : j < es) :
    ¬(g * es ≤ b * es + j ∧ b * es + j < g * es + es) := by
  rintro ⟨h1, h2⟩
  rcases Nat.lt_or_gt_of_ne hbg with h | h
  · have : (b + 1) * es ≤ g * es := Nat.mul_le_mul_right es h
    rw [Nat.succ_mul] at this
    omega
  · have : (g + 1) * es ≤ b * es := Nat.mul_le_mul_right es h
    rw [Nat.succ_mul] at this
    omega

/-- The block holds what was written. -/
theorem Fd.readBlock_programmed_self (d : MtdDev) (fd : Fd) (g : Nat) (src : Nat → UInt8) :
    readBlock d.erasesize (fd.programmed d g src).mem g = (List.range d.erasesize).map src := by
  apply List.map_congr_left
  intro j hj
  have hj : j < d.erasesize := List.mem_range.mp hj
  have hin : g * d.erasesize ≤ g * d.erasesize + j ∧
      g * d.erasesize + j < g * d.erasesize + d.erasesize := by omega
  simp only [programmed, store, erased, if_pos hin, Nat.zero_add, Nat.add_sub_cancel_left]
  simp [show (0xff : UInt8) = -1 from rfl]

/-- The other blocks are kept. -/
theorem Fd.readBlock_programmed_ne (d : MtdDev) (fd : Fd) (g b : Nat) (src : Nat → UInt8)
    (hbg : b ≠ g) :
    readBlock d.erasesize (fd.programmed d g src).mem b = readBlock d.erasesize fd.mem b := by
  apply List.map_congr_left
  intro j hj
  have hj : j < d.erasesize := List.mem_range.mp hj
  simp only [programmed, store, erased, if_neg (block_disjoint hbg hj)]

/-- Reading a full buffer from its start gives its bytes. -/
private theorem map_bufByte (cfg : Config) (buf : List UInt8) :
    (List.range buf.length).map (bufByte cfg buf) = buf := by
  apply List.ext_getElem (by simp)
  intro i h1 h2
  simp [bufByte, List.getElem?_eq_getElem h2]

/-! ### The invariant on one device -/

/-- On a device that is opened with `k0` chunks written elsewhere: the blocks below `b` are dealt
    with and the cursors are in step. -/
structure InStep (img : List UInt8) (d : MtdDev) (mem0 : Nat → UInt8) (k0 b : Nat) (st : St) :
    Prop where
  pending : Pending d.erasesize img (k0 + (d.goodBelow b).length) st.buf st.rest
  le_numChunks : k0 + (d.goodBelow b).length ≤ numChunks d.erasesize img
  noError : ReadRes.error ∉ st.script
  offset_eq : st.offset = 0
  skip_eq : st.skip = 0
  jffs2file_eq : st.jffs2file = false
  le_nblocks : b ≤ d.nblocks
  e_eq : st.e = b * d.erasesize
  pos_eq : st.fd.pos = b * d.erasesize
  w_eq : st.w = (d.goodBelow b).length * d.erasesize
  sync : b * d.erasesize = st.w + st.skipBadBlocks
  erasable : ∀ i < b, d.isBad i = false → d.canErase i = true
  log_eq : st.fd.log = (d.goodBelow b).flatMap (blockOps d.erasesize)
  stored : (d.goodBelow b).map (readBlock d.erasesize st.fd.mem) =
    (List.range' k0 (d.goodBelow b).length).map (chunk d.erasesize 0xff img)
  kept : ∀ i ∉ d.goodBelow b, readBlock d.erasesize st.fd.mem i = readBlock d.erasesize mem0 i

/-- What is handed to the next device when block `g` could not be erased. The buffer holds the
    chunk that was due there. If no bad block was skipped, the good blocks before `g` are in
    order; otherwise `offset` points behind the buffer. -/
structure Handed (img : List UInt8) (d : MtdDev) (k0 g : Nat) (st : St) : Prop where
  isGood : d.isBad g = false
  cannotErase : d.canErase g = false
  erasable : ∀ i < g, d.isBad i = false → d.canErase i = true
  loaded : Loaded d.erasesize img (k0 + (d.goodBelow g).length) st.buf st.rest
  noError : ReadRes.error ∉ st.script
  skip_eq : st.skip = 0
  jffs2file_eq : st.jffs2file = false
  sync : g * d.erasesize = (d.goodBelow g).length * d.erasesize + st.skipBadBlocks
  clean : st.skipBadBlocks = 0 → st.offset = 0 ∧
    st.fd.log = (d.goodBelow g).flatMap (blockOps d.erasesize) ∧
    (d.goodBelow g).map (readBlock d.erasesize st.fd.mem) =
      (List.range' k0 (d.goodBelow g).length).map (chunk d.erasesize 0xff img)
  dirty : st.skipBadBlocks ≠ 0 → d.erasesize ≤ st.offset

/-- Turns that are surely enough from `st` on. -/
def turnsLeft (st : St) : Nat := st.rest.length + if st.buf = [] then 1 else 2

/-- What a turn from block `b` on does, by the way it ends. -/
def TurnSpec (img : List UInt8) (d : MtdDev) (mem0 : Nat → UInt8) (next : Bool) (k0 b : Nat)
    (st : St) : Turn → Prop
  | .again st' => st'.buf = [] ∧ st'.rest.length ≤ st.rest.length ∧
      ∃ b', InStep img d mem0 k0 b' st'
  | .done st' => st'.fd = st.fd ∧
      img.length ≤ (k0 + (d.goodBelow b).length) * d.erasesize
  | .resume st' => next = true ∧ ∃ g, Handed img d k0 g st'
  | .exit => True
  | .outOfFuel => False

/-- Writing a block to the block that was just erased stores all of it, or fails. -/
theorem Fd.write_erased (d : MtdDev) (fd : Fd) (g : Nat) (src : Nat → UInt8)
    (hg : g < d.nblocks) :
    ((fd.erased d g).write d src 0 d.erasesize).2 = -1 ∨
      (fd.erased d g).write d src 0 d.erasesize = (fd.programmed d g src, (d.erasesize : Int)) := by
  have hle := d.mul_erasesize_le (Nat.succ_le_of_lt hg)
  rw [Nat.succ_mul] at hle
  have hes := d.erasesize_pos
  have hpos : (fd.erased d g).pos = g * d.erasesize := rfl
  have hcount : min d.erasesize (d.size - g * d.erasesize) = d.erasesize := by omega
  simp only [Fd.write, hpos, if_neg (show ¬d.size ≤ g * d.erasesize by omega), hcount]
  cases d.writeFault (g * d.erasesize) with
  | none => exact Or.inr rfl
  | some k => exact Or.inl rfl

/-- The good blocks up to `g` hold their chunks once `g` has been written. -/
private theorem stored_programmed {img : List UInt8} {d : MtdDev} {mem0 : Nat → UInt8} {k0 b : Nat}
    {st : St} (h : InStep img d mem0 k0 b st) {g : Nat} (hbg : b ≤ g) (src : Nat → UInt8)
    (hsrc : (List.range d.erasesize).map src =
      chunk d.erasesize 0xff img (k0 + (d.goodBelow b).length)) :
    (d.goodBelow b ++ [g]).map (readBlock d.erasesize (st.fd.programmed d g src).mem) =
      (List.range' k0 (d.goodBelow b ++ [g]).length).map (chunk d.erasesize 0xff img) := by
  have hold : (d.goodBelow b).map (readBlock d.erasesize (st.fd.programmed d g src).mem) =
      (d.goodBelow b).map (readBlock d.erasesize st.fd.mem) := by
    apply List.map_congr_left
    intro i hi
    have hlt := ((d.mem_goodBelow b i).mp hi).1
    exact Fd.readBlock_programmed_ne d st.fd g i src (by omega)
  rw [List.map_append, hold, h.stored, List.map_singleton, Fd.readBlock_programmed_self, hsrc,
    List.length_append, List.length_singleton, List.range'_1_concat, List.map_append,
    List.map_singleton]

/-- Every good block below the one the erase loop reached over bad blocks can be erased. -/
private theorem InStep.erasable_below {img : List UInt8} {d : MtdDev} {mem0 : Nat → UInt8}
    {k0 b : Nat} {st : St} (h : InStep img d mem0 k0 b st) {g : Nat}
    (hbad : ∀ i, b ≤ i → i < g → d.isBad i = true) :
    ∀ i < g, d.isBad i = false → d.canErase i = true := by
  intro i hi hig
  by_cases hib : i < b
  · exact h.erasable i hib hig
  · rw [hbad i (by omega) hi] at hig
    cases hig

/-- Where no bad block was skipped, the erase loop stopped at the block it began with. -/
private theorem InStep.eq_of_not_ahead {img : List UInt8} {d : MtdDev} {mem0 : Nat → UInt8}
    {k0 b : Nat} {st : St} (h : InStep img d mem0 k0 b st) {g : Nat} (hbg : b ≤ g)
    (hahead : ¬st.w < g * d.erasesize) : b = g := by
  refine Nat.le_antisymm hbg (Nat.le_of_not_lt fun hlt => ?_)
  have hmul : (b + 1) * d.erasesize ≤ g * d.erasesize := Nat.mul_le_mul_right _ hlt
  rw [Nat.succ_mul] at hmul
  have hsync := h.sync
  have hes := d.erasesize_pos
  omega

/-- Where bad blocks were skipped, the cursors are at least a block apart. -/
private theorem InStep.erasesize_le_ahead {img : List UInt8} {d : MtdDev} {mem0 : Nat → UInt8}
    {k0 b : Nat} {st : St} (h : InStep img d mem0 k0 b st) {g : Nat}
    (hahead : st.w < g * d.erasesize) : d.erasesize ≤ g * d.erasesize - st.w := by
  have hmul : (g - (d.goodBelow b).length) * d.erasesize = g * d.erasesize - st.w := by
    rw [Nat.sub_mul, h.w_eq]
  rw [← hmul]
  refine Nat.le_mul_of_pos_left _ (Nat.pos_of_ne_zero fun h0 => ?_)
  rw [h0, Nat.zero_mul] at hmul
  omega

/-- A block that cannot be erased: the buffer is handed to the next device, if there is one. -/
private theorem InStep.handOver_spec (cfg : Config) {img : List UInt8} {d : MtdDev}
    {mem0 : Nat → UInt8} (next : Bool) {k0 b : Nat} {st : St} (h : InStep img d mem0 k0 b st)
    (hl : Loaded d.erasesize img (k0 + (d.goodBelow b).length) st.buf st.rest)
    {fd' : Fd} {e' skip' : Nat}
    (hspec : EraseSpec d st.fd b st.skipBadBlocks (.failed fd' e' skip')) :
    TurnSpec img d mem0 next k0 b st
      (handOver cfg d next { st with fd := fd', e := e', skipBadBlocks := skip' }) := by
  obtain ⟨g, hbg, -, hbad, hgood, hcan, rfl, hskip, rfl⟩ := hspec
  have hgb := d.goodBelow_of_bad hbg hbad
  have hw : g * d.erasesize = st.w + skip' := by have := h.sync; omega
  simp only [handOver]
  cases next with
  | false => trivial
  | true =>
    simp only [↓reduceIte]
    split
    · -- bad blocks were skipped: part of the buffer goes to the end of this device
      rename_i hahead
      refine ⟨rfl, g, hgood, hcan, h.erasable_below hbad, by rw [hgb]; exact hl, h.noError,
        h.skip_eq, h.jffs2file_eq, by rw [hgb, ← h.w_eq]; exact hw, fun h0 => ?_,
        fun _ => h.erasesize_le_ahead hahead⟩
      dsimp only at hahead h0
      omega
    · rename_i hahead
      -- no bad block was skipped: the device ends just behind the last write
      obtain rfl := h.eq_of_not_ahead hbg hahead
      refine ⟨rfl, b, hgood, hcan, h.erasable_below hbad, hl, h.noError, h.skip_eq,
        h.jffs2file_eq, by rw [← h.w_eq]; exact hw,
        fun _ => ⟨h.offset_eq, h.log_eq, h.stored⟩, fun h0 => ?_⟩
      simp only at hahead h0
      omega

/-- The cursors are in step again once the chunk stands in block `g`. -/
private theorem InStep.written {img : List UInt8} {d : MtdDev} {mem0 : Nat → UInt8} {k0 b : Nat}
    {st : St} (h : InStep img d mem0 k0 b st)
    (hl : Loaded d.erasesize img (k0 + (d.goodBelow b).length) st.buf st.rest) {g skip' : Nat}
    (hbg : b ≤ g) (hbad : ∀ i, b ≤ i → i < g → d.isBad i = true) (hgood : d.isBad g = false)
    (hcan : d.canErase g = true)
    (hskip : skip' + b * d.erasesize = st.skipBadBlocks + g * d.erasesize) (src : Nat → UInt8)
    (hsrc : (List.range d.erasesize).map src =
      chunk d.erasesize 0xff img (k0 + (d.goodBelow b).length)) :
    InStep img d mem0 k0 (g + 1)
      { st with
        fd := st.fd.programmed d g src, e := g * d.erasesize + d.erasesize
        skipBadBlocks := skip', w := st.w + d.erasesize, buf := [], offset := 0 } := by
  have hgb := d.goodBelow_succ hbg hbad hgood
  have hlen : (d.goodBelow (g + 1)).length = (d.goodBelow b).length + 1 := by
    rw [hgb, List.length_append, List.length_singleton]
  have hsync := h.sync
  -- every field is counted one block further, and the frame is that of the program step
  exact
    { pending := by rw [hlen, ← Nat.add_assoc]; exact hl.next
      le_numChunks := by
        rw [hlen, ← Nat.add_assoc]
        exact (lt_numChunks_iff _ d.erasesize_pos _ _).mpr hl.lt_length
      noError := h.noError
      offset_eq := rfl
      skip_eq := h.skip_eq
      jffs2file_eq := h.jffs2file_eq
      le_nblocks := d.lt_nblocks_of_canErase hcan
      e_eq := by rw [Nat.succ_mul]
      pos_eq := by rw [Nat.succ_mul]; rfl
      w_eq := by rw [hlen, Nat.succ_mul, ← h.w_eq]
      sync := by rw [Nat.succ_mul]; dsimp only; omega
      erasable := fun i hi hig => by
        -- the new block is the one the loop has just erased
        rcases Nat.lt_or_eq_of_le (Nat.le_of_lt_succ hi) with hlt | rfl
        · exact h.erasable_below hbad i hlt hig
        · exact hcan
      log_eq := by
        rw [hgb, List.flatMap_append, List.flatMap_singleton, ← h.log_eq]
        exact Fd.log_programmed d st.fd g _
      stored := by rw [hgb]; exact stored_programmed h hbg _ hsrc
      kept := fun i hi => by
        rw [hgb, List.mem_append, List.mem_singleton, not_or] at hi
        rw [← h.kept i hi.1]
        exact Fd.readBlock_programmed_ne d st.fd g i _ hi.2 }

/-- An erased block takes the whole chunk, or the write fails and `mtd` gives up. -/
private theorem InStep.writeBlock_spec (cfg : Config) {img : List UInt8} {d : MtdDev}
    {mem0 : Nat → UInt8} (next : Bool) {k0 b : Nat} {st : St} (h : InStep img d mem0 k0 b st)
    (hl : Loaded d.erasesize img (k0 + (d.goodBelow b).length) st.buf st.rest)
    {fd' : Fd} {e' skip' : Nat}
    (hspec : EraseSpec d st.fd b st.skipBadBlocks (.ready fd' e' skip')) :
    TurnSpec img d mem0 next k0 b st
      (writeBlock cfg d { st with fd := fd', e := e', skipBadBlocks := skip' }) := by
  obtain ⟨g, hbg, hbad, hgood, hcan, rfl, hskip, rfl⟩ := hspec
  have hes := d.erasesize_pos
  have hsrc : (List.range d.erasesize).map (bufByte cfg st.buf) =
      chunk d.erasesize 0xff img (k0 + (d.goodBelow b).length) := by
    rw [← hl.buf_eq, ← hl.length_buf, map_bufByte]
  simp only [writeBlock, h.offset_eq, hl.length_buf]
  rcases Fd.write_erased d st.fd g (bufByte cfg st.buf) (d.lt_nblocks_of_canErase hcan) with
    hwr | hwr
  · rw [if_pos (by rw [hwr]; omega)]; trivial
  · simp only [hwr, Int.lt_irrefl, ↓reduceIte]
    exact ⟨rfl, Nat.le_refl _, g + 1, h.written hl hbg hbad hgood hcan hskip _ hsrc⟩

/-- Erasing ahead and writing a loaded chunk. -/
theorem eraseAndWrite_spec (cfg : Config) (hpart : cfg.partOffset = 0)
    (herase : cfg.noErase = false) {img : List UInt8} {d : MtdDev} {mem0 : Nat → UInt8}
    (next : Bool) {k0 b : Nat} {st : St} (h : InStep img d mem0 k0 b st)
    (hl : Loaded d.erasesize img (k0 + (d.goodBelow b).length) st.buf st.rest) :
    TurnSpec img d mem0 next k0 b st (eraseAndWrite cfg d next st) := by
  have hspec := eraseLoop_spec cfg d hpart st.w st.skipBadBlocks
    (eraseFuel d (st.w + d.erasesize + st.skipBadBlocks)) b st.fd h.le_nblocks h.pos_eq h.sync
    (by rw [eraseFuel]; generalize _ / d.erasesize = q; omega)
  simp only [eraseAndWrite, eraseAhead, herase, Bool.false_eq_true, ↓reduceIte, h.e_eq,
    hl.length_buf]
  generalize eraseLoop cfg d st.w d.erasesize _ st.fd (b * d.erasesize) st.skipBadBlocks = r
    at hspec ⊢
  -- an erase that fails hands the block over, otherwise it is written
  cases r with
  | exit => trivial
  | outOfFuel => exact hspec
  | failed fd' e' skip' => simpa only [h.e_eq] using h.handOver_spec cfg next hl hspec
  | ready fd' e' skip' => simpa only [h.e_eq] using h.writeBlock_spec cfg next hl hspec

/-- Loading a chunk keeps the cursors in step. -/
private theorem InStep.load {img : List UInt8} {d : MtdDev} {mem0 : Nat → UInt8} {k0 b : Nat}
    {st : St} (h : InStep img d mem0 k0 b st) {buf rest : List UInt8} {script : List ReadRes}
    (hp : Pending d.erasesize img (k0 + (d.goodBelow b).length) buf rest)
    (herr : ReadRes.error ∉ script) :
    InStep img d mem0 k0 b { st with buf := buf, rest := rest, script := script } :=
  { h with pending := hp, noError := herr }

/-- Without `-j` a loaded block is erased and written. -/
theorem handleBlock_eq (cfg : Config) (d : MtdDev) (next : Bool) (st : St)
    (hskip : st.skip = 0) (hjffs2 : st.jffs2file = false) :
    handleBlock cfg d next st = eraseAndWrite cfg d next st := by
  simp [handleBlock, hskip, hjffs2]

/-- One turn of `for (;;)` from a state in step. -/
theorem writeTurn_spec (cfg : Config) (hpart : cfg.partOffset = 0)
    (herase : cfg.noErase = false) {img : List UInt8} {d : MtdDev} {mem0 : Nat → UInt8}
    (next : Bool) {k0 b : Nat} {st : St} (h : InStep img d mem0 k0 b st) :
    match writeTurn cfg d next st with
    | .again st' => turnsLeft st' < turnsLeft st ∧ ∃ b', InStep img d mem0 k0 b' st'
    | t => TurnSpec img d mem0 next k0 b st t := by
  have hfill := h.pending.fill d.erasesize_pos st.script h.noError
  have hrest := fillBuf_rest_le d.erasesize st.script st.rest st.buf
  have hlens := fillBuf_rest_length d.erasesize st.script st.rest st.buf
  have herr : ReadRes.error ∉ (fillBuf d.erasesize st.script st.rest st.buf).2.2 :=
    fun hmem => h.noError (fillBuf_script_subset _ _ _ _ hmem)
  simp only [writeTurn]
  generalize fillBuf d.erasesize st.script st.rest st.buf = p at hfill hrest hlens herr ⊢
  obtain ⟨buf, rest, script⟩ := p
  simp only at hfill hrest hlens herr ⊢
  -- the input is at its end, or there is a chunk to write
  rcases hfill with ⟨rfl, hlen⟩ | ⟨hne, hl⟩
  · exact ⟨rfl, hlen⟩
  · have hpos : 0 < buf.length := List.length_pos_iff.mpr hne
    have hin := h.load hl.pending herr
    -- the chunk is padded to a block and written at the next good one
    have hstep := eraseAndWrite_spec cfg hpart herase next hin hl
    rw [if_neg (show ¬buf.length = 0 by omega),
      handleBlock_eq _ _ _ _ hin.skip_eq hin.jffs2file_eq]
    generalize eraseAndWrite cfg d next _ = t at hstep ⊢
    cases t with
    | again st' =>
      obtain ⟨hbuf, hrest', hin⟩ := hstep
      refine ⟨?_, hin⟩
      simp only [turnsLeft, hbuf, ↓reduceIte] at hrest' ⊢
      split
      · rename_i h0
        rw [h0, List.length_nil] at hlens
        omega
      · omega
    | done st' => exact hstep
    | resume st' => exact hstep
    | exit => trivial
    | outOfFuel => exact hstep

/-- How `for (;;)` ends on one device. -/
def LoopSpec (img : List UInt8) (d : MtdDev) (mem0 : Nat → UInt8) (next : Bool) (k0 : Nat) :
    Turn → Prop
  | .done st' => ∃ b st, InStep img d mem0 k0 b st ∧ st'.fd = st.fd ∧
      img.length ≤ (k0 + (d.goodBelow b).length) * d.erasesize
  | .resume st' => next = true ∧ ∃ g, Handed img d k0 g st'
  | .exit => True
  | .again _ => False
  | .outOfFuel => False

/-- The loop from a state in step: it ends, and as `LoopSpec` says. -/
theorem writeLoop_spec (cfg : Config) (hpart : cfg.partOffset = 0)
    (herase : cfg.noErase = false) {img : List UInt8} {d : MtdDev} {mem0 : Nat → UInt8}
    (next : Bool) (fuel : Nat) {k0 b : Nat} {st : St} (h : InStep img d mem0 k0 b st)
    (hfuel : turnsLeft st ≤ fuel) :
    LoopSpec img d mem0 next k0 (writeLoop cfg d next fuel st) := by
  induction fuel generalizing b st with
  | zero =>
    simp only [turnsLeft] at hfuel
    split at hfuel <;> omega
  | succ fuel ih =>
    have hturn := writeTurn_spec cfg hpart herase next h
    rw [writeLoop]
    generalize writeTurn cfg d next st = t at hturn ⊢
    cases t with
    -- each turn leaves fewer
    | again st' =>
      obtain ⟨hlt, b', h'⟩ := hturn
      exact ih h' (by omega)
    | done st' => exact ⟨b, st, h, hturn.1, hturn.2⟩
    | resume st' => exact hturn
    | exit => trivial
    | outOfFuel => exact hturn

end HandsomeMod.Native.Mtd
