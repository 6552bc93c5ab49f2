import HandsomeMod.Spec.MtdWhole

/-!
# `mtd_write` behind a partition offset

With `part_offset` at block `p`, `mtd_write` asks whether block `k` is bad, erases block `p + k`
and writes there, since the file position starts at `part_offset`. So the blocks that are erased are
those that are written, but the bad blocks that are skipped are those of the first partition: the
image starts at the first good block of its own only if a bad block `k` comes with a bad `p + k`.
-/

namespace HandsomeMod.Native.Mtd

open HandsomeMod.ForStd

variable {cfg : Config} {d : MtdDev} {p b : Nat} {st st' : St}

/-! ### What a turn does behind the offset -/

/-- The cursors, and the changes to a device whose partition starts at block `p`. -/
structure Placed (cfg : Config) (d : MtdDev) (p b : Nat) (st : St) : Prop where
  cursors : Cursors cfg d b st
  pos_eq : st.fd.pos = (p + b) * d.erasesize
  log_eq : st.fd.log = (d.takenBelow b).flatMap fun k => blockOps d.erasesize (p + k)
  asked_eq : ∀ k < b, d.asked k = some (d.isBad k)
  canErase : ∀ k ∈ d.takenBelow b, d.canErase (p + k) = true
  last_taken : ∀ k, b = k + 1 → d.asked k = some false

/-- Erasing a block logs it and keeps the position. -/
private theorem mtdEraseBlock_some {fd fd' : Fd} {offset : Nat} (hlt : offset < 2 ^ 32)
    (h : mtdEraseBlock d fd offset = some fd') :
    fd'.pos = fd.pos ∧ fd'.log = fd.log ++ [.erase offset] ∧
      d.canErase (offset / d.erasesize) = true := by
  rw [mtdEraseBlock, Nat.mod_eq_of_lt hlt, Fd.memErase] at h
  split at h
  case isTrue hcan =>
    cases h
    exact ⟨rfl, rfl, hcan.2⟩
  case isFalse => cases h

/-- Erasing a block keeps the position. -/
private theorem mtdEraseBlock_pos {fd fd' : Fd} {offset : Nat}
    (h : mtdEraseBlock d fd offset = some fd') : fd'.pos = fd.pos := by
  rw [mtdEraseBlock, Fd.memErase] at h
  split at h
  · cases h
    rfl
  · cases h

/-- A block inside the device that was asked for is as the answer says. -/
theorem MtdDev.asked_eq_isBad {k : Nat} {bad : Bool} (hk : k ≤ d.nblocks)
    (h : d.asked k = some bad) : d.asked k = some (d.isBad k) := by
  obtain hnone | hsome := mtdBlockIsBad_block d hk
  · rw [MtdDev.asked, hnone] at h
    cases h
  · exact hsome

/-- A block that is written is the next one that is taken. -/
private theorem eraseAndWrite_placed (next : Bool) (hclean : Clean st) (hno : cfg.noErase = false)
    (hpart : cfg.partOffset = p * d.erasesize) (h : Placed cfg d p b st)
    (hlen : st.buf.length = d.erasesize) (hagain : eraseAndWrite cfg d next st = .again st') :
    ∃ b', Placed cfg d p b' st' ∧ (d.takenBelow b').length = (d.takenBelow b).length + 1 := by
  have hes := d.erasesize_pos
  have hstep := eraseAndWrite_stepped st next hclean (.inr h.cursors) hlen
  rw [hagain] at hstep
  obtain ⟨-, -, -, -, -, hcur'⟩ := hstep
  obtain ⟨b', hcur', hcount⟩ := hcur'.resolve_left (by rw [hno]; decide)
  have hrun := eraseLoop_run cfg d st.w st.skipBadBlocks
    (eraseFuel d (st.w + st.buf.length + st.skipBadBlocks)) b st.fd h.cursors.sync
  rw [eraseAndWrite, eraseAhead] at hagain
  simp only [hno, Bool.false_eq_true, ↓reduceIte, hlen, h.cursors.e_eq] at hrun hagain
  generalize eraseLoop cfg d st.w d.erasesize _ st.fd (b * d.erasesize) st.skipBadBlocks = r
    at hrun hagain
  cases hrun with
  | exit => cases hagain
  | outOfFuel => cases hagain
  | failed g hbg hbad hstop =>
    simp only [handOver] at hagain
    split at hagain
    · split at hagain <;> cases hagain
    · cases hagain
  | ready g fd' hbg hbad hgood herase =>
    simp only at hagain
    obtain hexit | ⟨fd₁, hwrite, hagain'⟩ := writeBlock_cases cfg d
      { st with
        fd := fd', e := (g + 1) * d.erasesize
        skipBadBlocks := st.skipBadBlocks + (g - b) * d.erasesize } hclean.offset_eq
    · rw [hexit] at hagain
      cases hagain
    rw [hagain'] at hagain
    cases hagain
    -- the erase pointer tells the block
    obtain rfl : g + 1 = b' := Nat.eq_of_mul_eq_mul_right hes hcur'.e_eq
    obtain ⟨rfl, hfits⟩ := Fd.store_of_write hwrite
    -- the file position went over the bad blocks with the erase loop
    have hpos : fd'.pos = (p + g) * d.erasesize := by
      have hsum : p + g = p + b + (g - b) := by omega
      rw [mtdEraseBlock_pos herase, Fd.seekCur, hsum, Nat.add_mul (p + b), ← h.pos_eq]
    simp only [hpos, hlen] at hfits
    have hoffset : g * d.erasesize + cfg.partOffset = (p + g) * d.erasesize := by
      rw [hpart, Nat.add_comm, Nat.add_mul]
    have hlt := d.size_lt
    obtain ⟨-, hlog, hcan⟩ := mtdEraseBlock_some (by omega) herase
    rw [hoffset] at hlog hcan
    rw [Nat.mul_div_cancel _ hes] at hcan
    have hg : g < d.nblocks := by
      have := d.lt_nblocks_of_canErase hcan
      omega
    have htaken := d.takenBelow_succ hbg hbad hgood
    -- position, log, the blocks asked about, the blocks that could be erased, and the last one
    refine ⟨g + 1, ⟨hcur', ?_, ?_, ?_, ?_, ?_⟩, hcount⟩
    · show fd'.pos + st.buf.length = _
      rw [hpos, hlen, ← Nat.add_assoc, Nat.succ_mul]
    · show fd'.log ++ [.write fd'.pos 0 st.buf.length] = _
      rw [htaken, List.flatMap_append, ← h.log_eq, hlog, hpos, hlen, List.append_assoc]
      rfl
    · intro k hk
      obtain hlt | hge := Nat.lt_or_ge k b
      · exact h.asked_eq k hlt
      · obtain hlt | rfl := Nat.lt_succ_iff_lt_or_eq.mp hk
        · exact MtdDev.asked_eq_isBad (by omega) (hbad k hge hlt)
        · exact MtdDev.asked_eq_isBad (by omega) hgood
    · intro k hk
      rw [htaken] at hk
      obtain hk | hk := List.mem_append.mp hk
      · exact h.canErase k hk
      · rw [List.mem_singleton.mp hk]
        exact hcan
    · intro k hk
      obtain rfl : g = k := Nat.succ.inj hk
      exact hgood

/-! ### The whole run -/

/-- A run that ends with the image has written each block that the reads delivered to the next
    block that is not skipped. -/
private theorem writeLoop_placed (next : Bool) (fuel : Nat) (hclean : Clean st)
    (hno : cfg.noErase = false) (hpart : cfg.partOffset = p * d.erasesize)
    (h : Placed cfg d p b st) (hbuf : st.buf.length ≤ d.erasesize)
    (hdone : writeLoop cfg d next fuel st = .done st') :
    ∃ b' blocks left, Placed cfg d p b' st' ∧
      Delivers d.erasesize st.script st.rest st.buf blocks left ∧
      (d.takenBelow b').length = (d.takenBelow b).length + blocks.length := by
  -- one block is read, padded and written in a turn, and `b` moves behind it
  induction fuel generalizing b st with
  | zero => cases hdone
  | succ fuel ih =>
    rw [writeLoop, writeTurn] at hdone
    have hle := fillBuf_length_le d.erasesize st.script st.rest st.buf hbuf
    cases hfill : fillBuf d.erasesize st.script st.rest st.buf with
    | mk piece p' =>
      obtain ⟨rest, script⟩ := p'
      rw [hfill] at hle hdone
      simp only at hle hdone
      by_cases hempty : piece.length = 0
      · rw [List.length_eq_zero_iff] at hempty
        subst hempty
        simp only [List.length_nil, ↓reduceIte] at hdone
        cases hdone
        exact ⟨b, [], rest, ⟨⟨h.cursors.e_eq, h.cursors.w_eq, h.cursors.sync, h.cursors.passable⟩,
          h.pos_eq, h.log_eq, h.asked_eq, h.canErase, h.last_taken⟩, .stop hfill, rfl⟩
      -- an empty piece ends the loop, and it is not empty
      rw [if_neg hempty, handleBlock_eq cfg d next
        { st with buf := padBlock d.erasesize piece, rest := rest, script := script }
        hclean.skip_eq hclean.jffs2file_eq] at hdone
      have hclean₁ : Clean
          { st with buf := padBlock d.erasesize piece, rest := rest, script := script } :=
        ⟨hclean.offset_eq, hclean.skip_eq, hclean.jffs2file_eq⟩
      have h₁ : Placed cfg d p b
          { st with buf := padBlock d.erasesize piece, rest := rest, script := script } :=
        ⟨⟨h.cursors.e_eq, h.cursors.w_eq, h.cursors.sync, h.cursors.passable⟩,
          h.pos_eq, h.log_eq, h.asked_eq, h.canErase, h.last_taken⟩
      have hstep := eraseAndWrite_stepped _ next hclean₁ (.inr h₁.cursors) (length_padBlock hle)
      cases hturn : eraseAndWrite cfg d next
        { st with buf := padBlock d.erasesize piece, rest := rest, script := script } with
      | exit => rw [hturn] at hdone; cases hdone
      | outOfFuel => rw [hturn] at hdone; cases hdone
      | resume st₁ => rw [hturn] at hdone; cases hdone
      | done st₁ => rw [hturn] at hstep; exact hstep.elim
      | again st₁ =>
        rw [hturn] at hstep hdone
        obtain ⟨-, hbuf₁, hrest₁, hscript₁, hclean', -⟩ := hstep
        obtain ⟨b₁, hplaced, hcount⟩ :=
          eraseAndWrite_placed next hclean₁ hno hpart h₁ (length_padBlock hle) hturn
        obtain ⟨b', blocks, left, hplaced', hread, hcount'⟩ :=
          ih hclean' hplaced (by rw [hbuf₁]; exact Nat.zero_le _) hdone
        rw [hbuf₁, hrest₁, hscript₁] at hread
        refine ⟨b', _, left, hplaced', .block hfill (fun heq => hempty (by rw [heq]; rfl)) hread, ?_⟩
        rw [hcount', hcount, List.length_cons, Nat.add_assoc, Nat.add_comm 1]

/-- A run whose image ends on the first device. -/
theorem mtdWrite_placed {t : Target} {ts : List Target} {img : Image} {fd : Fd}
    (hno : cfg.noErase = false) (hpart : cfg.partOffset = p * t.1.erasesize)
    (hbuf : img.buf.length ≤ t.1.erasesize)
    (hret : mtdWrite cfg false (t :: ts) img = .returned [fd]) :
    ∃ b st' blocks left, Placed cfg t.1 p b st' ∧ st'.fd = fd ∧
      Delivers t.1.erasesize img.script img.rest img.buf blocks left ∧
      (t.1.takenBelow b).length = blocks.length := by
  rw [mtdWrite] at hret
  obtain ⟨st', ⟨hdone, heq⟩ | ⟨-, fds, hmore, heq⟩⟩ := writeFrom_returned hret
  · cases heq
    -- the device was opened at its start, nothing is written yet
    obtain ⟨b, blocks, left, hplaced, hread, hcount⟩ :=
      writeLoop_placed (b := 0) (!ts.isEmpty) _ ⟨rfl, rfl, rfl⟩ hno hpart
        ⟨cursors_open cfg t.1 rfl rfl rfl, hpart, rfl, fun k hk => absurd hk (Nat.not_lt_zero k),
          fun k hk => absurd hk List.not_mem_nil, fun k hk => absurd hk (Nat.succ_ne_zero k).symm⟩ hbuf hdone
    refine ⟨b, st', blocks, left, hplaced, rfl, hread, ?_⟩
    rw [hcount]
    exact Nat.zero_add _
  · -- a later device would have left its own changes
    cases heq
    cases ts with
    | nil => cases hmore
    | cons t' ts =>
      obtain ⟨st₂, ⟨-, hfds⟩ | ⟨-, fds', -, hfds⟩⟩ := writeFrom_returned hmore <;> cases hfds

/-! ### Where the image starts -/

/-- `g` is the first good block at or after the byte `partOffset`. -/
def MtdDev.IsFirstGood (d : MtdDev) (partOffset g : Nat) : Prop :=
  partOffset ≤ g * d.erasesize ∧ d.isBad g = false ∧
    ∀ i < g, partOffset ≤ i * d.erasesize → d.isBad i = true

/-- The changes are blocks that are erased and then written whole, none of them bad, from the first
    good block at or after the offset on. -/
def BlocksAgree (d : MtdDev) (partOffset : Nat) (fd : Fd) : Prop :=
  ∃ gs : List Nat, fd.log = gs.flatMap (blockOps d.erasesize) ∧ (∀ g ∈ gs, d.isBad g = false) ∧
    ∀ g ∈ gs.head?, d.IsFirstGood partOffset g

/-- The first read that is not tried again fails. -/
def failsFirst : List ReadRes → Bool
  | [] => false
  | .eintr :: script => failsFirst script
  | .eagain :: script => failsFirst script
  | .error :: _ => true
  | .short _ :: _ => false

/-- The reads deliver no byte. -/
def NothingRead (img : Image) : Prop :=
  img.buf = [] ∧ (img.rest = [] ∨ failsFirst img.script = true)

/-- The buffer stays empty exactly if nothing is read. -/
private theorem fillBuf_eq_nil_iff {es : Nat} (hes : 0 < es) (script : List ReadRes)
    (rest buf : List UInt8) :
    (fillBuf es script rest buf).1 = [] ↔ buf = [] ∧ (rest = [] ∨ failsFirst script = true) := by
  -- the results of `read` one by one: a retry asks again, an error stops
  induction script generalizing rest buf with
  | nil =>
    rw [fillBuf, failsFirst, List.append_eq_nil_iff, List.take_eq_nil_iff]
    refine and_congr_right fun hbuf => ?_
    rw [hbuf, List.length_nil]
    simp only [Bool.false_eq_true, or_false]
    exact or_iff_right (by omega)
  | cons r script ih =>
    rw [fillBuf.eq_def]
    simp only
    by_cases hlt : buf.length < es
    · rw [if_pos hlt]
      cases r with
      | eintr => exact ih rest buf
      | eagain => exact ih rest buf
      | error => simp [failsFirst]
      | short n =>
        cases rest with
        | nil => simp [failsFirst]
        | cons x rest =>
          simp only [ih, failsFirst]
          simp
    · rw [if_neg hlt]
      have hne : buf ≠ [] := by
        rintro rfl
        exact hlt hes
      simp [hne]

/-- No block is delivered exactly if nothing is read. -/
theorem Delivers.eq_nil_iff {es : Nat} {img : Image} {blocks : List (List UInt8)}
    {left : List UInt8} (hes : 0 < es)
    (h : Delivers es img.script img.rest img.buf blocks left) : blocks = [] ↔ NothingRead img := by
  rw [NothingRead, ← fillBuf_eq_nil_iff hes]
  cases h with
  | stop hfill => simp [hfill]
  | block hfill hne => simp [hfill, hne]

/-- The log tells which blocks were written. -/
theorem flatMap_blockOps_inj {es : Nat} (hes : 0 < es) {gs gs' : List Nat}
    (h : gs.flatMap (blockOps es) = gs'.flatMap (blockOps es)) : gs = gs' := by
  induction gs generalizing gs' with
  | nil =>
    cases gs' with
    | nil => rfl
    | cons g' gs' => cases h
  | cons g gs ih =>
    cases gs' with
    | nil => cases h
    | cons g' gs' =>
      simp only [List.flatMap_cons, blockOps, List.cons_append, List.nil_append,
        List.cons.injEq, Op.erase.injEq] at h
      -- the first erase says which block it is, and the write behind it is the same
      rw [Nat.eq_of_mul_eq_mul_right hes h.1, ih h.2.2]

/-- The blocks that were written, by their place on the device. -/
theorem Placed.log_eq_map (h : Placed cfg d p b st) :
    st.fd.log = ((d.takenBelow b).map (p + ·)).flatMap (blockOps d.erasesize) := by
  rw [h.log_eq, List.flatMap_map]

/-- A block that can be erased is not bad. -/
theorem MtdDev.isBad_of_canErase {k : Nat} (h : d.canErase k = true) : d.isBad k = false := by
  rw [canErase] at h
  simp only [Bool.and_eq_true, Bool.not_eq_true', decide_eq_true_eq] at h
  exact h.1.2

/-- The first block that is not skipped. -/
theorem Placed.isBad_of_head (h : Placed cfg d p b st) {k : Nat}
    (hk : k ∈ (d.takenBelow b).head?) : k < b ∧ d.isBad k = false ∧ ∀ i < k, d.isBad i = true := by
  rw [MtdDev.takenBelow, List.head?_filter, Option.mem_def, List.find?_range_eq_some] at hk
  obtain ⟨hasked, hlt, hbefore⟩ := hk
  rw [List.mem_range] at hlt
  refine ⟨hlt, ?_, fun i hi => ?_⟩
  · rw [h.asked_eq k hlt] at hasked
    simpa using hasked
  · have hi' := hbefore i hi
    rw [h.asked_eq i (by omega)] at hi'
    simpa using hi'

/-- `mtd_write` at an offset of `p` blocks, when the image ends on the first device: the blocks
    erased and written are good blocks from the first one at or after the offset on exactly if no
    byte was read, or every bad block with only bad blocks before comes with a bad one `p` blocks
    further on. -/
theorem mtdWrite_blocksAgree_iff (cfg : Config) (t : Target) (ts : List Target) (img : Image)
    (p : Nat) (fd : Fd) (hno : cfg.noErase = false) (hpart : cfg.partOffset = p * t.1.erasesize)
    (hbuf : img.buf.length ≤ t.1.erasesize)
    (hret : mtdWrite cfg false (t :: ts) img = .returned [fd]) :
    BlocksAgree t.1 cfg.partOffset fd ↔
      NothingRead img ∨ ∀ k, (∀ i ≤ k, t.1.isBad i = true) → t.1.isBad (p + k) = true := by
  have hes := t.1.erasesize_pos
  obtain ⟨b, st', blocks, left, h, rfl, hread, hcount⟩ := mtdWrite_placed hno hpart hbuf hret
  rw [← hread.eq_nil_iff hes, ← List.length_eq_zero_iff, ← hcount, List.length_eq_zero_iff]
  constructor
  -- the first good block seen from `p` on must be the first one written
  · rintro ⟨gs, hlog, -, hfirst⟩
    rw [h.log_eq_map] at hlog
    obtain rfl := flatMap_blockOps_inj hes hlog
    cases hhead : (t.1.takenBelow b).head? with
    | none => exact .inl (List.head?_eq_none_iff.mp hhead)
    | some k₀ =>
      refine .inr fun k hk => ?_
      obtain ⟨-, hgood, -⟩ := h.isBad_of_head hhead
      obtain ⟨-, -, hbefore⟩ := hfirst (p + k₀) (by rw [List.head?_map, hhead]; rfl)
      -- block `k₀` of the image is good, so a bad run from the start ends below it
      have hlt : k < k₀ := by
        refine Nat.lt_of_not_le fun hle => ?_
        rw [hk k₀ hle] at hgood
        cases hgood
      refine hbefore (p + k) (by omega) ?_
      rw [hpart]
      exact Nat.mul_le_mul_right _ (Nat.le_add_right p k)
  · intro hcond
    refine ⟨_, h.log_eq_map, fun g hg => ?_, fun g hg => ?_⟩
    · obtain ⟨k, hk, rfl⟩ := List.mem_map.mp hg
      exact t.1.isBad_of_canErase (h.canErase k hk)
    · rw [List.head?_map, Option.mem_def, Option.map_eq_some_iff] at hg
      obtain ⟨k₀, hhead, rfl⟩ := hg
      obtain ⟨-, -, hbefore⟩ := h.isBad_of_head hhead
      have hmem : k₀ ∈ t.1.takenBelow b := List.mem_of_head? hhead
      obtain hnil | hbad := hcond
      · rw [hnil] at hmem
        cases hmem
      refine ⟨?_, t.1.isBad_of_canErase (h.canErase k₀ hmem), fun i hi hle => ?_⟩
      · rw [hpart]
        exact Nat.mul_le_mul_right _ (Nat.le_add_right p k₀)
      · rw [hpart] at hle
        have hpi := Nat.le_of_mul_le_mul_right hle hes
        -- the blocks below the first good one are bad at the start, so they are from `p` on
        have hback := hbad (i - p) fun j hj => hbefore j (by omega)
        rwa [Nat.add_sub_cancel' hpi] at hback

/-! ### Where the rest of it goes -/

/-- Below the last visited block, the blocks that are not skipped are the good ones. -/
theorem Placed.takenBelow_eq (h : Placed cfg d p b st) {k : Nat} (hk : k ≤ b) :
    d.takenBelow k = d.goodBelow k := by
  refine List.filter_congr fun i hi => ?_
  rw [h.asked_eq i (Nat.lt_of_lt_of_le (List.mem_range.mp hi) hk)]
  cases d.isBad i <;> rfl

/-- Blocks below the last visited one are those with fewer good blocks before them. -/
theorem Placed.lt_iff (h : Placed cfg d p b st) {k : Nat} :
    k < b ↔ (d.goodBelow k).length < (d.takenBelow b).length := by
  rw [h.takenBelow_eq (Nat.le_refl b)]
  constructor
  · intro hk
    cases b with
    | zero => cases hk
    | succ g =>
      -- the last visited block is not skipped
      have hlast := h.last_taken g rfl
      rw [h.asked_eq g (Nat.lt_succ_self g)] at hlast
      have hmono := d.length_goodBelow_mono (Nat.le_of_lt_succ hk)
      have hsucc : d.goodBelow (g + 1) = d.goodBelow g ++ [g] := by
        simp [MtdDev.goodBelow, List.range_succ, Option.some.inj hlast]
      rw [hsucc, List.length_append, List.length_singleton]
      omega
  -- before `b` the good blocks are exactly those that were taken
  · intro hlt
    refine Nat.lt_of_not_le fun hle => ?_
    have hmono := d.length_goodBelow_mono hle
    omega

/-- The blocks that are written are the first good ones at or after the offset, without a gap,
    exactly if every bad block before the last one that is not skipped comes with a bad one `p`
    blocks further on. -/
theorem mtdWrite_consecutive_iff (cfg : Config) (t : Target) (ts : List Target) (img : Image)
    (p : Nat) (fd : Fd) (hno : cfg.noErase = false) (hpart : cfg.partOffset = p * t.1.erasesize)
    (hbuf : img.buf.length ≤ t.1.erasesize)
    (hret : mtdWrite cfg false (t :: ts) img = .returned [fd])
    {blocks : List (List UInt8)} {left : List UInt8}
    (hread : Delivers t.1.erasesize img.script img.rest img.buf blocks left) :
    (∃ c, fd.log = ((List.range' p c).filter fun g => !t.1.isBad g).flatMap
        (blockOps t.1.erasesize)) ↔
      ∀ k, (t.1.goodBelow k).length < blocks.length → t.1.isBad k = true →
        t.1.isBad (p + k) = true := by
  have hes := t.1.erasesize_pos
  obtain ⟨b, st', blocks', left', h, rfl, hread', hcount⟩ := mtdWrite_placed hno hpart hbuf hret
  obtain ⟨rfl, rfl⟩ := hread'.unique hread
  simp only [← hcount, ← h.lt_iff]
  have hmem : ∀ k, k ∈ t.1.takenBelow b ↔ k < b ∧ t.1.isBad k = false := by
    intro k
    rw [h.takenBelow_eq (Nat.le_refl b), t.1.mem_goodBelow]
  constructor
  -- the log names the blocks written, so it names those that were skipped
  · rintro ⟨c, hlog⟩ k hk hbad
    rw [h.log_eq_map] at hlog
    have hgs := flatMap_blockOps_inj hes hlog
    have hiff : ∀ i, p + i ∈ (t.1.takenBelow b).map (p + ·) ↔ i < c ∧ t.1.isBad (p + i) = false := by
      intro i
      rw [hgs, List.mem_filter, List.mem_range'_1]
      simp only [Bool.not_eq_true']
      exact and_congr_left fun _ => by omega
    simp only [List.mem_map, Nat.add_left_cancel_iff, exists_eq_right, hmem] at hiff
    -- the last visited block is written, so the range reaches it
    obtain ⟨g, rfl⟩ := Nat.exists_eq_succ_of_ne_zero (Nat.ne_of_gt (Nat.zero_lt_of_lt hk))
    have hlast := h.last_taken g rfl
    rw [h.asked_eq g (Nat.lt_succ_self g), Option.some.injEq] at hlast
    have hg := (hiff g).mp ⟨Nat.lt_succ_self g, hlast⟩
    by_contra hgood
    simp only [Bool.not_eq_true] at hgood
    have hback := (hiff k).mpr ⟨by omega, hgood⟩
    rw [hbad] at hback
    cases hback.2
  -- every block skipped on the source's count is bad at the shifted place as well
  · intro hcond
    refine ⟨b, ?_⟩
    rw [h.log_eq_map, List.range'_eq_map_range, List.filter_map, h.takenBelow_eq (Nat.le_refl b)]
    refine congrArg (fun gs => (List.map (p + ·) gs).flatMap _) (List.filter_congr fun k hk => ?_)
    rw [List.mem_range] at hk
    show (!t.1.isBad k) = !t.1.isBad (p + k)
    cases hbad : t.1.isBad k with
    | true => rw [hcond k hk hbad]
    | false => rw [t.1.isBad_of_canErase (h.canErase k ((hmem k).mpr ⟨hk, hbad⟩))]

/-! ### A bad block in the first partition -/

/-- The options with an offset of one block. -/
def behindBlock : Config := { plainConfig with partOffset := 2 }

/-- Two bytes behind the first block of a device without bad blocks. -/
theorem mtdWrite_blocksAgree_iff_spareNand :
    ∃ fd, mtdWrite behindBlock false [(spareNand, fun _ => 0)] ⟨[], [1, 2], []⟩ = .returned [fd] ∧
      (BlocksAgree spareNand 2 fd ↔ NothingRead ⟨[], [1, 2], []⟩ ∨
        ∀ k, (∀ i ≤ k, spareNand.isBad i = true) → spareNand.isBad (1 + k) = true) := by
  have hlogs : (mtdWrite behindBlock false [(spareNand, fun _ => 0)] ⟨[], [1, 2], []⟩).logs =
      some [[.erase 2, .write 2 0 2]] := by decide
  obtain ⟨fds, hret, hfds⟩ := returned_of_logs hlogs
  obtain ⟨fd, rfl⟩ := List.length_eq_one_iff.mp (by simpa using congrArg List.length hfds)
  exact ⟨fd, hret, mtdWrite_blocksAgree_iff behindBlock (spareNand, fun _ => 0) [] ⟨[], [1, 2], []⟩ 1
    fd rfl rfl (by decide) hret⟩

/-- The first block of the device is bad, and the first one of the partition is left out. -/
theorem mtdWrite_skips_good :
    ∃ fd, mtdWrite behindBlock false [(smallNand, fun _ => 0)] ⟨[], [1, 2], []⟩ = .returned [fd] ∧
      ¬BlocksAgree smallNand 2 fd := by
  have hlogs : (mtdWrite behindBlock false [(smallNand, fun _ => 0)] ⟨[], [1, 2], []⟩).logs =
      some [[.erase 4, .write 4 0 2]] := by decide
  obtain ⟨fds, hret, hfds⟩ := returned_of_logs hlogs
  obtain ⟨fd, rfl⟩ := List.length_eq_one_iff.mp (by simpa using congrArg List.length hfds)
  refine ⟨fd, hret, ?_⟩
  rintro ⟨gs, hlog, -, hfirst⟩
  have hlog' : fd.log = [2].flatMap (blockOps smallNand.erasesize) := (List.cons.inj hfds).1
  obtain rfl := flatMap_blockOps_inj smallNand.erasesize_pos (hlog.symm.trans hlog')
  obtain ⟨-, -, hbefore⟩ := hfirst 2 rfl
  -- block 1 is good
  have hgood := hbefore 1 (by decide) (by decide)
  cases hgood

end HandsomeMod.Native.Mtd
