import HandsomeMod.Spec.MtdReads
import HandsomeMod.Spec.MtdResume

/-!
# `mtd_write` and a whole image

When `mtd_write` returns 0, with any options but `-j` and any list of devices, the blocks that the
reads deliver have been written, each by one write that stored all of it. The image is among them as
a whole exactly if no read failed on an empty buffer with bytes left, and no device was left behind
on which a bad block had been skipped.
-/

namespace HandsomeMod.Native.Mtd

open HandsomeMod.ForStd

variable {cfg : Config} {d : MtdDev} {fd fd' fd'' : Fd} {blocks blocks' : List (List UInt8)}

/-! ### What a run does to a device -/

/-- The file position moves, blocks are erased, and the given blocks are written in order, each by
    one write that stores all of it. -/
inductive Flashed (cfg : Config) (d : MtdDev) : Fd → List (List UInt8) → Fd → Prop where
  | refl (fd : Fd) : Flashed cfg d fd [] fd
  | seek {fd fd' : Fd} {blocks : List (List UInt8)} (pos : Nat)
    (h : Flashed cfg d { fd with pos := pos } blocks fd') : Flashed cfg d fd blocks fd'
  | erase {fd fd₁ fd' : Fd} {blocks : List (List UInt8)} (start : Nat)
    (herase : fd.memErase d start = some fd₁) (h : Flashed cfg d fd₁ blocks fd') :
    Flashed cfg d fd blocks fd'
  | write {fd fd₁ fd' : Fd} {block : List UInt8} {blocks : List (List UInt8)}
    (hwrite : fd.write d (bufByte cfg block) 0 block.length = (fd₁, (block.length : Int)))
    (h : Flashed cfg d fd₁ blocks fd') : Flashed cfg d fd (block :: blocks) fd'

/-- Blocks that are flashed one after the other. -/
theorem Flashed.trans (h : Flashed cfg d fd blocks fd') (h' : Flashed cfg d fd' blocks' fd'') :
    Flashed cfg d fd (blocks ++ blocks') fd'' := by
  induction h with
  | refl => exact h'
  | seek pos _ ih => exact .seek pos (ih h')
  | erase start herase _ ih => exact .erase start herase (ih h')
  | write hwrite _ ih => exact .write hwrite (ih h')

/-- A write that returns the whole length has stored all of it. -/
theorem Fd.store_of_write {fd₁ : Fd} {src : Nat → UInt8} {off len : Nat}
    (hwrite : fd.write d src off len = (fd₁, (len : Int))) :
    fd₁ = fd.store src off len ∧ fd.pos + len ≤ d.size := by
  rw [Fd.write] at hwrite
  -- a write behind the end and a fault both return a negative count
  split at hwrite
  · have := congrArg Prod.snd hwrite
    simp only at this
    omega
  · rename_i hpos
    cases hfault : d.writeFault fd.pos with
    | some k =>
      rw [hfault] at hwrite
      have := congrArg Prod.snd hwrite
      simp only at this
      omega
    | none =>
      rw [hfault] at hwrite
      have hcount := congrArg Prod.snd hwrite
      have hfd := congrArg Prod.fst hwrite
      simp only at hcount hfd
      have hmin : min len (d.size - fd.pos) = len := by omega
      rw [hmin] at hfd
      exact ⟨hfd.symm, by omega⟩

/-- Such a run writes from the start of the buffer only. -/
theorem Flashed.inBuffer {es : Nat} (h : Flashed cfg d fd blocks fd')
    (hblocks : ∀ b ∈ blocks, b.length = es) (hfd : ¬WroteOutside es fd) : ¬WroteOutside es fd' := by
  -- erases and seeks log no write, and every write logged here is a whole block
  induction h with
  | refl => exact hfd
  | seek pos _ ih => exact ih hblocks hfd
  | @erase fd fd₁ fd' blocks start herase _ ih =>
    refine ih hblocks fun hout => hfd ?_
    obtain ⟨pos, off, len, hmem, hlt⟩ := hout
    rw [Fd.memErase] at herase
    split at herase
    · cases herase
      exact ⟨pos, off, len, by simpa using hmem, hlt⟩
    · cases herase
  | @write fd fd₁ fd' block blocks hwrite _ ih =>
    refine ih (fun b hb => hblocks b (List.mem_cons_of_mem _ hb)) fun hout => hfd ?_
    obtain ⟨pos, off, len, hmem, hlt⟩ := hout
    have hlen := hblocks block List.mem_cons_self
    obtain ⟨rfl, -⟩ := Fd.store_of_write hwrite
    refine ⟨pos, off, len, ?_, hlt⟩
    -- the new entry of the log is a write from the start of the block
    simp only [Fd.store, List.mem_append, List.mem_singleton, Op.write.injEq] at hmem
    obtain hmem | ⟨-, hoff, hlen'⟩ := hmem
    · exact hmem
    · omega

/-! ### Bad blocks and erases, as `mtd_write` sees them -/

/-- What `mtd_write` learns about block `k` before it erases. -/
def MtdDev.asked (d : MtdDev) (k : Nat) : Option Bool := mtdBlockIsBad d (k * d.erasesize)

/-- The erase for block `k` succeeds. -/
def canEraseAt (cfg : Config) (d : MtdDev) (k : Nat) : Bool :=
  decide ((k * d.erasesize + cfg.partOffset) % 2 ^ 32 % d.erasesize = 0) &&
    d.canErase ((k * d.erasesize + cfg.partOffset) % 2 ^ 32 / d.erasesize)

/-- The blocks below `b` that are not skipped. -/
def MtdDev.takenBelow (d : MtdDev) (b : Nat) : List Nat :=
  (List.range b).filter fun k => d.asked k == some false

/-- Every block below `b` is skipped, or can be erased. -/
def Passable (cfg : Config) (d : MtdDev) (b : Nat) : Prop :=
  ∀ k < b, d.asked k = some true ∨ d.asked k = some false ∧ canEraseAt cfg d k = true

/-- The erase at block `g` fails. -/
def StopsAt (cfg : Config) (d : MtdDev) (g : Nat) : Prop :=
  d.asked g = some false ∧ canEraseAt cfg d g = false

/-- `n` blocks are written to the devices so that no bad block is skipped on a device that is left
    behind. -/
def HandsOverClean (cfg : Config) : List MtdDev → Nat → Prop
  | [], _ => True
  | d :: ds, n =>
    cfg.noErase = true ∨ (∃ b, Passable cfg d b ∧ n ≤ (d.takenBelow b).length) ∨
      ∃ g, Passable cfg d g ∧ (∀ k < g, d.asked k = some false) ∧ StopsAt cfg d g ∧
        HandsOverClean cfg ds (n - g)

/-- A block is not erased exactly if it cannot be. -/
private theorem mtdEraseBlock_eq_none_iff (cfg : Config) (d : MtdDev) (fd : Fd) (k : Nat) :
    mtdEraseBlock d fd (k * d.erasesize + cfg.partOffset) = none ↔ canEraseAt cfg d k = false := by
  rw [mtdEraseBlock, Fd.memErase, canEraseAt]
  split <;> simp_all

/-- The blocks that can be passed are in front of the one that stops. -/
theorem Passable.le {b g : Nat} (hb : Passable cfg d b) (hg : StopsAt cfg d g) : b ≤ g := by
  refine Nat.le_of_not_lt fun hlt => ?_
  have hasked := hg.1
  have hcan := hg.2
  obtain hbad | hgood := hb g hlt
  · rw [hasked] at hbad
    cases hbad
  · rw [hgood.2] at hcan
    cases hcan

/-- Skipped blocks do not count. -/
theorem MtdDev.takenBelow_of_bad (d : MtdDev) {b g : Nat} (hbg : b ≤ g)
    (hbad : ∀ i, b ≤ i → i < g → d.asked i = some true) : d.takenBelow g = d.takenBelow b := by
  induction g with
  | zero => rw [Nat.le_zero.mp hbg]
  | succ g ih =>
    obtain rfl | hlt := Nat.eq_or_lt_of_le hbg
    · rfl
    · have hg := hbad g (by omega) (by omega)
      rw [← ih (by omega) fun i hi hig => hbad i hi (by omega)]
      simp [takenBelow, List.range_succ, hg]

/-- The next block that is taken. -/
theorem MtdDev.takenBelow_succ (d : MtdDev) {b g : Nat} (hbg : b ≤ g)
    (hbad : ∀ i, b ≤ i → i < g → d.asked i = some true) (hg : d.asked g = some false) :
    d.takenBelow (g + 1) = d.takenBelow b ++ [g] := by
  rw [← d.takenBelow_of_bad hbg hbad]
  simp [takenBelow, List.range_succ, hg]

/-- No more blocks are taken than there are. -/
theorem MtdDev.length_takenBelow_le (d : MtdDev) (b : Nat) : (d.takenBelow b).length ≤ b := by
  have h := List.length_filter_le (fun k => d.asked k == some false) (List.range b)
  rwa [List.length_range] at h

/-- There are no fewer taken blocks below a later one. -/
theorem MtdDev.length_takenBelow_mono (d : MtdDev) {b c : Nat} (h : b ≤ c) :
    (d.takenBelow b).length ≤ (d.takenBelow c).length := by
  have hpre : List.range b <+: List.range c :=
    List.prefix_iff_eq_take.mpr (by rw [List.length_range, List.take_range, Nat.min_eq_left h])
  exact (List.IsPrefix.filter _ hpre).length_le

/-- All blocks below are taken exactly if each is said to be good. -/
theorem MtdDev.length_takenBelow_eq_iff (d : MtdDev) (b : Nat) :
    (d.takenBelow b).length = b ↔ ∀ k < b, d.asked k = some false := by
  have h : (d.takenBelow b).length = (List.range b).length ↔
      ∀ k ∈ List.range b, d.asked k == some false := List.length_filter_eq_length_iff
  simpa using h

/-- What the erase loop does from block `b` on. -/
inductive EraseRun (cfg : Config) (d : MtdDev) (fd : Fd) (b skip : Nat) : EraseRes → Prop where
  | ready (g : Nat) (fd' : Fd) (hbg : b ≤ g)
    (hbad : ∀ i, b ≤ i → i < g → d.asked i = some true) (hgood : d.asked g = some false)
    (herase : mtdEraseBlock d (fd.seekCur ((g - b) * d.erasesize))
      (g * d.erasesize + cfg.partOffset) = some fd') :
    EraseRun cfg d fd b skip
      (.ready fd' ((g + 1) * d.erasesize) (skip + (g - b) * d.erasesize))
  | failed (g : Nat) (hbg : b ≤ g) (hbad : ∀ i, b ≤ i → i < g → d.asked i = some true)
    (hstop : StopsAt cfg d g) :
    EraseRun cfg d fd b skip
      (.failed (fd.seekCur ((g - b) * d.erasesize)) (g * d.erasesize)
        (skip + (g - b) * d.erasesize))
  | exit : EraseRun cfg d fd b skip .exit
  | outOfFuel : EraseRun cfg d fd b skip .outOfFuel

/-- One bad block more. -/
theorem EraseRun.of_bad {b skip : Nat} {r : EraseRes} (hbad : d.asked b = some true)
    (h : EraseRun cfg d (fd.seekCur d.erasesize) (b + 1) (skip + d.erasesize) r) :
    EraseRun cfg d fd b skip r := by
  -- what the run behind block `b` skipped, this one skips too, with `b` before it
  have hext : ∀ {g : Nat}, (∀ i, b + 1 ≤ i → i < g → d.asked i = some true) →
      ∀ i, b ≤ i → i < g → d.asked i = some true := by
    intro g hall i hi hlt
    obtain rfl | hi := Nat.eq_or_lt_of_le hi
    · exact hbad
    · exact hall i hi hlt
  have hseek : ∀ {g : Nat}, b + 1 ≤ g →
      d.erasesize + (g - (b + 1)) * d.erasesize = (g - b) * d.erasesize := by
    intro g hg
    have hsub : g - b = g - (b + 1) + 1 := by omega
    rw [hsub, Nat.succ_mul, Nat.add_comm]
  cases h with
  | ready g fd' hbg hall hgood herase =>
    have hfd : (fd.seekCur d.erasesize).seekCur ((g - (b + 1)) * d.erasesize) =
        fd.seekCur ((g - b) * d.erasesize) := by
      rw [Fd.seekCur, Fd.seekCur, Fd.seekCur, ← hseek hbg, Nat.add_assoc]
    rw [hfd] at herase
    rw [Nat.add_assoc, hseek hbg]
    exact .ready g fd' (by omega) (hext hall) hgood herase
  | failed g hbg hall hstop =>
    have hfd : (fd.seekCur d.erasesize).seekCur ((g - (b + 1)) * d.erasesize) =
        fd.seekCur ((g - b) * d.erasesize) := by
      rw [Fd.seekCur, Fd.seekCur, Fd.seekCur, ← hseek hbg, Nat.add_assoc]
    rw [hfd, Nat.add_assoc, hseek hbg]
    exact .failed g (by omega) (hext hall) hstop
  | exit => exact .exit
  | outOfFuel => exact .outOfFuel

/-- What the erase loop does, with any part offset. -/
theorem eraseLoop_run (cfg : Config) (d : MtdDev) (w skip fuel b : Nat) (fd : Fd)
    (hsync : b * d.erasesize = w + skip) :
    EraseRun cfg d fd b skip
      (eraseLoop cfg d w d.erasesize fuel fd (b * d.erasesize) skip) := by
  -- a bad block leaves the run to the next turn; on a good one the loop condition fails next
  induction fuel generalizing b skip fd with
  | zero => exact .outOfFuel
  | succ fuel ih =>
    have hes := d.erasesize_pos
    rw [eraseLoop, if_pos (by omega)]
    cases hasked : mtdBlockIsBad d (b * d.erasesize) with
    | none => exact .exit
    | some bad =>
      cases bad with
      | true =>
        have hrun := ih (skip + d.erasesize) (b + 1) (fd.seekCur d.erasesize)
          (by rw [Nat.succ_mul]; omega)
        rw [Nat.succ_mul] at hrun
        exact hrun.of_bad hasked
      | false =>
        have hseek : fd.seekCur ((b - b) * d.erasesize) = fd := by
          rw [Nat.sub_self, Nat.zero_mul]
          rfl
        have hskip : skip = skip + (b - b) * d.erasesize := by rw [Nat.sub_self, Nat.zero_mul, Nat.add_zero]
        -- the erase decides: a failure breaks out of the loop at this block
        cases herase : mtdEraseBlock d fd (b * d.erasesize + cfg.partOffset) with
        | none =>
          have hstop : StopsAt cfg d b :=
            ⟨hasked, (mtdEraseBlock_eq_none_iff cfg d fd b).mp herase⟩
          have hfailed : EraseRun cfg d fd b skip _ :=
            .failed b (Nat.le_refl b) (fun i hi hlt => by omega) hstop
          rw [hseek, ← hskip] at hfailed
          exact hfailed
        | some fd' =>
          rw [← hseek] at herase
          have hready : EraseRun cfg d fd b skip _ :=
            .ready b fd' (Nat.le_refl b) (fun i hi hlt => by omega) hasked herase
          rw [← hskip, Nat.succ_mul] at hready
          cases fuel with
          | zero => exact .outOfFuel
          | succ fuel =>
            show EraseRun cfg d fd b skip
              (eraseLoop cfg d w d.erasesize (fuel + 1) fd' (b * d.erasesize + d.erasesize) skip)
            rw [eraseLoop, if_neg (by omega)]
            exact hready

/-! ### One block -/

/-- No offset into the buffer, nothing to skip, and no `-j`. -/
structure Clean (st : St) : Prop where
  offset_eq : st.offset = 0
  skip_eq : st.skip = 0
  jffs2file_eq : st.jffs2file = false

/-- The cursors on a device whose blocks below `b` are dealt with. -/
structure Cursors (cfg : Config) (d : MtdDev) (b : Nat) (st : St) : Prop where
  e_eq : st.e = b * d.erasesize
  w_eq : st.w = (d.takenBelow b).length * d.erasesize
  sync : b * d.erasesize = st.w + st.skipBadBlocks
  passable : Passable cfg d b

/-- What a turn does with the block in the buffer. -/
def Stepped (cfg : Config) (d : MtdDev) (b : Nat) (st : St) : Turn → Prop
  | .again st' => Flashed cfg d st.fd [st.buf] st'.fd ∧ st'.buf = [] ∧ st'.rest = st.rest ∧
      st'.script = st.script ∧ Clean st' ∧
      (cfg.noErase = true ∨ ∃ b', Cursors cfg d b' st' ∧
        (d.takenBelow b').length = (d.takenBelow b).length + 1)
  | .resume st' => cfg.noErase = false ∧ st'.buf = st.buf ∧ st'.rest = st.rest ∧
      st'.script = st.script ∧ ∃ g, Passable cfg d g ∧ StopsAt cfg d g ∧
        (d.takenBelow g).length = (d.takenBelow b).length ∧
        ((∀ k < g, d.asked k = some false) →
          Flashed cfg d st.fd [] st'.fd ∧ Clean st' ∧ st'.skipBadBlocks = 0) ∧
        ((¬∀ k < g, d.asked k = some false) → OffsetOutside d.erasesize st')
  | .done _ => False
  | .exit => True
  | .outOfFuel => True

/-- A write writes no more than asked for. -/
theorem Fd.write_le (d : MtdDev) (fd : Fd) (src : Nat → UInt8) (off len : Nat) :
    (fd.write d src off len).2 ≤ (len : Int) := by
  rw [Fd.write]
  split
  · simp only
    omega
  · split <;>
    · simp only
      omega

/-- A buffer is written whole, or the program ends. -/
theorem writeBlock_cases (cfg : Config) (d : MtdDev) (st : St) (hoff : st.offset = 0) :
    writeBlock cfg d st = .exit ∨ ∃ fd₁,
      st.fd.write d (bufByte cfg st.buf) 0 st.buf.length = (fd₁, (st.buf.length : Int)) ∧
      writeBlock cfg d st =
        .again { st with fd := fd₁, w := st.w + st.buf.length, buf := [], offset := 0 } := by
  have hle := Fd.write_le d st.fd (bufByte cfg st.buf) 0 st.buf.length
  rw [writeBlock, hoff]
  cases hwrite : st.fd.write d (bufByte cfg st.buf) 0 st.buf.length with
  | mk fd₁ result =>
    rw [hwrite] at hle
    simp only at hle ⊢
    -- a short write ends the program
    by_cases hlt : result < st.buf.length
    · rw [if_pos hlt]
      exact .inl rfl
    · rw [if_neg hlt]
      have heq : result = st.buf.length := by omega
      exact .inr ⟨fd₁, by rw [heq], rfl⟩

/-- The erases in front of a write. -/
theorem Flashed.of_ready {b g : Nat} {fd fd' : Fd}
    (herase : mtdEraseBlock d (fd.seekCur ((g - b) * d.erasesize))
      (g * d.erasesize + cfg.partOffset) = some fd') : Flashed cfg d fd [] fd' :=
  .seek _ (.erase _ herase (.refl fd'))

/-- Erasing and writing takes the next block, or stops. -/
theorem eraseAndWrite_stepped {b : Nat} (st : St) (next : Bool) (hclean : Clean st)
    (hc : cfg.noErase = true ∨ Cursors cfg d b st) (hlen : st.buf.length = d.erasesize) :
    Stepped cfg d b st (eraseAndWrite cfg d next st) := by
  have hes := d.erasesize_pos
  rw [eraseAndWrite, eraseAhead]
  by_cases hno : cfg.noErase = true
  · -- nothing is erased
    simp only [hno, ↓reduceIte]
    obtain hexit | ⟨fd₁, hwrite, hagain⟩ := writeBlock_cases cfg d st hclean.offset_eq
    · rw [hexit]
      trivial
    · rw [hagain]
      exact ⟨.write hwrite (.refl _), rfl, rfl, rfl, ⟨rfl, hclean.skip_eq, hclean.jffs2file_eq⟩,
        .inl hno⟩
  have hcur := hc.resolve_left hno
  have hrun := eraseLoop_run cfg d st.w st.skipBadBlocks
    (eraseFuel d (st.w + st.buf.length + st.skipBadBlocks)) b st.fd hcur.sync
  simp only [Bool.not_eq_true] at hno
  simp only [hno, Bool.false_eq_true, ↓reduceIte, hlen, hcur.e_eq] at hrun ⊢
  generalize eraseLoop cfg d st.w d.erasesize _ st.fd (b * d.erasesize) st.skipBadBlocks = r at hrun
  have hmul : ∀ {g : Nat}, b ≤ g → (g - b) * d.erasesize + b * d.erasesize = g * d.erasesize := by
    intro g hbg
    rw [← Nat.add_mul, Nat.sub_add_cancel hbg]
  -- the loop stopped at block `g`: it was erased, or it cannot be
  cases hrun with
  | exit => trivial
  | outOfFuel => trivial
  | ready g fd' hbg hbad hgood herase =>
    have hcan : canEraseAt cfg d g = true := by
      by_contra hcan
      rw [(mtdEraseBlock_eq_none_iff cfg d _ g).mpr (by simpa using hcan)] at herase
      cases herase
    obtain hexit | ⟨fd₁, hwrite, hagain⟩ := writeBlock_cases cfg d
      { st with
        fd := fd', e := (g + 1) * d.erasesize
        skipBadBlocks := st.skipBadBlocks + (g - b) * d.erasesize } hclean.offset_eq
    · simp only [hexit]
      trivial
    · simp only [hagain]
      have hcount : (d.takenBelow (g + 1)).length = (d.takenBelow b).length + 1 := by
        rw [d.takenBelow_succ hbg hbad hgood, List.length_append, List.length_singleton]
      -- up to `g` all blocks are bad, and `g` itself was good and erased
      have hpass : Passable cfg d (g + 1) := by
        intro k hk
        obtain hlt | hge := Nat.lt_or_ge k b
        · exact hcur.passable k hlt
        · obtain hlt | rfl := Nat.lt_succ_iff_lt_or_eq.mp hk
          · exact .inl (hbad k hge hlt)
          · exact .inr ⟨hgood, hcan⟩
      refine ⟨(Flashed.of_ready herase).trans (.write hwrite (.refl _)), rfl, rfl, rfl,
        ⟨rfl, hclean.skip_eq, hclean.jffs2file_eq⟩, .inr ⟨g + 1, ⟨rfl, ?_, ?_, hpass⟩, hcount⟩⟩
      · show st.w + st.buf.length = _
        rw [hcount, hlen, hcur.w_eq, Nat.succ_mul]
      · have hw := hcur.sync
        have hg := hmul hbg
        show (g + 1) * d.erasesize =
          st.w + st.buf.length + (st.skipBadBlocks + (g - b) * d.erasesize)
        rw [Nat.succ_mul, hlen]
        omega
  | failed g hbg hbad hstop =>
    simp only [handOver]
    cases next with
    | false => trivial
    | true =>
      have hcount := congrArg List.length (d.takenBelow_of_bad hbg hbad)
      -- up to `g` all blocks are bad, `g` is where the device ends
      have hpass : Passable cfg d g := by
        intro k hk
        obtain hlt | hge := Nat.lt_or_ge k b
        · exact hcur.passable k hlt
        · exact .inl (hbad k hge hk)
      have hw : st.w = (d.takenBelow g).length * d.erasesize := by rw [hcur.w_eq, hcount]
      have hle := d.length_takenBelow_le g
      have hiff := d.length_takenBelow_eq_iff g
      simp only [↓reduceIte]
      by_cases hwe : st.w < g * d.erasesize
      -- the device is full: the buffer goes to the next one
      · -- bad blocks were skipped
        rw [if_pos hwe]
        have hne : (d.takenBelow g).length < g := by
          rw [hw] at hwe
          exact Nat.lt_of_mul_lt_mul_right hwe
        refine ⟨hno, rfl, rfl, rfl, g, hpass, hstop, hcount,
          fun hall => absurd (hiff.mpr hall) (Nat.ne_of_lt hne), fun _ => ?_⟩
        refine ⟨hlen, ?_, hclean.skip_eq, hclean.jffs2file_eq⟩
        show d.erasesize ≤ g * d.erasesize - st.w
        rw [hw, ← Nat.sub_mul]
        exact Nat.le_mul_of_pos_left _ (by omega)
      · rw [if_neg hwe]
        have heq : (d.takenBelow g).length = g := by
          refine Nat.le_antisymm hle ?_
          rw [hw] at hwe
          exact Nat.le_of_mul_le_mul_right (Nat.not_lt.mp hwe) hes
        refine ⟨hno, rfl, rfl, rfl, g, hpass, hstop, hcount, fun _ => ⟨.seek _ (.refl _),
          ⟨hclean.offset_eq, hclean.skip_eq, hclean.jffs2file_eq⟩, ?_⟩,
          fun hnot => absurd (hiff.mp heq) hnot⟩
        have hsync := hcur.sync
        have hg := hmul hbg
        rw [hw, heq] at hsync
        simp only
        omega

/-! ### One device -/

/-- How `for (;;)` ends on one device. -/
def Ended (cfg : Config) (d : MtdDev) (b : Nat) (st : St) : Turn → Prop
  | .done st' => ∃ blocks left, Delivers d.erasesize st.script st.rest st.buf blocks left ∧
      Flashed cfg d st.fd blocks st'.fd ∧
      (cfg.noErase = true ∨ ∃ b', Passable cfg d b' ∧
        (d.takenBelow b').length = (d.takenBelow b).length + blocks.length)
  | .resume st' => cfg.noErase = false ∧ ∃ blocks,
      (∀ more left, Delivers d.erasesize st'.script st'.rest st'.buf more left →
        Delivers d.erasesize st.script st.rest st.buf (blocks ++ more) left) ∧
      st'.buf.length = d.erasesize ∧ ∃ g, Passable cfg d g ∧ StopsAt cfg d g ∧
        (d.takenBelow g).length = (d.takenBelow b).length + blocks.length ∧
        ((∀ k < g, d.asked k = some false) →
          Flashed cfg d st.fd blocks st'.fd ∧ Clean st' ∧ st'.skipBadBlocks = 0) ∧
        ((¬∀ k < g, d.asked k = some false) → OffsetOutside d.erasesize st')
  | .again _ => True
  | .exit => True
  | .outOfFuel => True

/-- The loop takes the next blocks, in order. -/
private theorem writeLoop_ended (cfg : Config) (d : MtdDev) (next : Bool) (fuel b : Nat) (st : St)
    (hclean : Clean st) (hbuf : st.buf.length ≤ d.erasesize)
    (hc : cfg.noErase = true ∨ Cursors cfg d b st) :
    Ended cfg d b st (writeLoop cfg d next fuel st) := by
  -- one turn takes one block of the image and the cursors to behind the next good block
  induction fuel generalizing b st with
  | zero => trivial
  | succ fuel ih =>
    rw [writeLoop, writeTurn]
    have hle := fillBuf_length_le d.erasesize st.script st.rest st.buf hbuf
    cases hfill : fillBuf d.erasesize st.script st.rest st.buf with
    | mk piece p =>
      obtain ⟨rest, script⟩ := p
      rw [hfill] at hle
      simp only at hle ⊢
      by_cases hempty : piece.length = 0
      · -- the image ends
        rw [List.length_eq_zero_iff] at hempty
        subst hempty
        simp only [List.length_nil, ↓reduceIte]
        refine ⟨[], rest, .stop hfill, .refl _, hc.imp_right fun hcur => ⟨b, hcur.passable, rfl⟩⟩
      rw [if_neg hempty]
      have hne : piece ≠ [] := fun heq => hempty (by rw [heq]; rfl)
      rw [handleBlock_eq cfg d next
        { st with buf := padBlock d.erasesize piece, rest := rest, script := script }
        hclean.skip_eq hclean.jffs2file_eq]
      have hc' : cfg.noErase = true ∨ Cursors cfg d b
          { st with buf := padBlock d.erasesize piece, rest := rest, script := script } :=
        hc.imp_right fun hcur => ⟨hcur.e_eq, hcur.w_eq, hcur.sync, hcur.passable⟩
      have hclean' : Clean
          { st with buf := padBlock d.erasesize piece, rest := rest, script := script } :=
        ⟨hclean.offset_eq, hclean.skip_eq, hclean.jffs2file_eq⟩
      have hstep := eraseAndWrite_stepped _ next hclean' hc' (length_padBlock hle)
      generalize eraseAndWrite cfg d next
        { st with buf := padBlock d.erasesize piece, rest := rest, script := script } = t at hstep
      -- the turn was the last one, or the invariant holds of `st'` and the rest runs from there
      cases t with
      | exit => trivial
      | outOfFuel => trivial
      | done st' => exact hstep.elim
      | resume st' =>
        obtain ⟨hno, hbuf', hrest', hscript', g, hpass, hstop, hcount, hgood, hbad⟩ := hstep
        refine ⟨hno, [], fun more left hmore => ?_, ?_, g, hpass, hstop, hcount, hgood, hbad⟩
        · -- the block is in the buffer, filled up
          have hlen : (padBlock d.erasesize piece).length = d.erasesize := length_padBlock hle
          rw [hbuf', hrest', hscript'] at hmore
          cases hmore with
          | stop hfill' =>
            rw [fillBuf_of_full _ _ _ _ hlen] at hfill'
            have hnil := congrArg Prod.fst hfill'
            simp only at hnil
            rw [hnil, List.length_nil] at hlen
            have hes := d.erasesize_pos
            omega
          | block hfill' hne' hmore' =>
            rw [fillBuf_of_full _ _ _ _ hlen] at hfill'
            cases hfill'
            have hpad : padBlock d.erasesize (padBlock d.erasesize piece) =
                padBlock d.erasesize piece := by
              rw [padBlock, hlen, Nat.sub_self, List.replicate_zero, List.append_nil]
            rw [hpad]
            exact .block hfill hne hmore'
        · rw [hbuf']
          exact length_padBlock hle
      | again st' =>
        obtain ⟨hflash, hbuf', hrest', hscript', hclean', hcur'⟩ := hstep
        -- the rest of the run is that from `st'` on
        have hdeliver : ∀ {blocks left},
            Delivers d.erasesize st'.script st'.rest st'.buf blocks left →
            Delivers d.erasesize st.script st.rest st.buf
              (padBlock d.erasesize piece :: blocks) left := by
          intro blocks left hmore
          rw [hbuf', hrest', hscript'] at hmore
          exact .block hfill hne hmore
        have hbuf'' : st'.buf.length ≤ d.erasesize := by rw [hbuf']; exact Nat.zero_le _
        obtain ⟨b', hc', hcount⟩ : ∃ b', (cfg.noErase = true ∨ Cursors cfg d b' st') ∧
            (cfg.noErase = true ∨
              (d.takenBelow b').length = (d.takenBelow b).length + 1) := by
          obtain hno | ⟨b', hcur, hcount⟩ := hcur'
          · exact ⟨0, .inl hno, .inl hno⟩
          · exact ⟨b', .inr hcur, .inr hcount⟩
        have hended := ih b' st' hclean' hbuf'' hc'
        show Ended cfg d b st (writeLoop cfg d next fuel st')
        generalize writeLoop cfg d next fuel st' = t at hended
        cases t with
        | again => trivial
        | exit => trivial
        | outOfFuel => trivial
        | done st'' =>
          obtain ⟨blocks, left, hmore, hflash', htaken⟩ := hended
          refine ⟨_, left, hdeliver hmore, hflash.trans hflash', ?_⟩
          obtain hno | ⟨b'', hpass, htaken⟩ := htaken
          · exact .inl hno
          · refine hcount.imp_right fun hcount => ⟨b'', hpass, ?_⟩
            rw [htaken, hcount, List.length_cons, Nat.add_assoc, Nat.add_comm 1]
        | resume st'' =>
          obtain ⟨hno, blocks, hmore, hlen, g, hpass, hstop, htaken, hgood, hbad⟩ := hended
          refine ⟨hno, _ :: blocks, fun more left h => hdeliver (hmore more left h), hlen, g, hpass,
            hstop, ?_, fun hall => ?_, hbad⟩
          · have hcount' := hcount.resolve_left (by rw [hno]; decide)
            rw [htaken, hcount', List.length_cons, Nat.add_assoc, Nat.add_comm 1]
          · obtain ⟨hflash', hrest⟩ := hgood hall
            exact ⟨hflash.trans hflash', hrest⟩

/-! ### All devices -/

/-- The blocks are written to the devices in order, some to each device that is used. -/
inductive FlashedOver (cfg : Config) : List Target → List Fd → List (List UInt8) → Prop where
  | last {t : Target} {ts : List Target} {fd : Fd} {blocks : List (List UInt8)}
    (h : Flashed cfg t.1 (openTarget cfg t) blocks fd) : FlashedOver cfg (t :: ts) [fd] blocks
  | next {t : Target} {ts : List Target} {fd : Fd} {fds : List Fd}
    {blocks more : List (List UInt8)} (h : Flashed cfg t.1 (openTarget cfg t) blocks fd)
    (hmore : FlashedOver cfg ts fds more) :
    FlashedOver cfg (t :: ts) (fd :: fds) (blocks ++ more)

/-- Nothing has been written when a device is opened. -/
private theorem openTarget_inBuffer (cfg : Config) (es : Nat) (t : Target) :
    ¬WroteOutside es (openTarget cfg t) := by
  rintro ⟨pos, off, len, hmem, -⟩
  cases hmem

/-- What was flashed was written from the buffer. -/
theorem FlashedOver.inBuffer {es : Nat} {ts : List Target} {fds : List Fd}
    (h : FlashedOver cfg ts fds blocks) (hblocks : ∀ b ∈ blocks, b.length = es) :
    ∀ fd ∈ fds, ¬WroteOutside es fd := by
  induction h with
  | last h =>
    intro fd hfd
    rw [List.mem_singleton.mp hfd]
    exact h.inBuffer hblocks (openTarget_inBuffer cfg es _)
  | next h hmore ih =>
    intro fd hfd
    obtain rfl | hfd := List.mem_cons.mp hfd
    · exact h.inBuffer (fun b hb => hblocks b (List.mem_append_left _ hb))
        (openTarget_inBuffer cfg es _)
    · exact ih (fun b hb => hblocks b (List.mem_append_right _ hb)) fd hfd

/-- A device that is left behind at block `g` is left cleanly if no block before was skipped. -/
private theorem handsOverClean_cons_iff {ds : List MtdDev} {g n : Nat} (hno : cfg.noErase = false)
    (hpass : Passable cfg d g) (hstop : StopsAt cfg d g) (hn : (d.takenBelow g).length < n) :
    HandsOverClean cfg (d :: ds) n ↔
      (∀ k < g, d.asked k = some false) ∧ HandsOverClean cfg ds (n - g) := by
  rw [HandsOverClean]
  constructor
  · rintro (herase | ⟨b, hb, hle⟩ | ⟨g', hpass', hgood, hstop', hrest⟩)
    · rw [hno] at herase
      cases herase
    · -- too few blocks fit before the erase that fails
      have hmono := d.length_takenBelow_mono (hb.le hstop)
      omega
    -- the erase that fails is the first one, so both are the same block
    · have heq : g' = g := Nat.le_antisymm (hpass'.le hstop) (hpass.le hstop')
      rw [heq] at hgood hrest
      exact ⟨hgood, hrest⟩
  · rintro ⟨hgood, hrest⟩
    exact .inr (.inr ⟨g, hpass, hgood, hstop, hrest⟩)

/-- The cursors when a device is opened. -/
theorem cursors_open (cfg : Config) (d : MtdDev) {st : St} (hskip : st.skipBadBlocks = 0)
    (he : st.e = 0) (hw : st.w = 0) : Cursors cfg d 0 st :=
  ⟨by rw [he, Nat.zero_mul], by rw [hw]; exact (Nat.zero_mul _).symm, by rw [hw, hskip, Nat.zero_mul],
    fun k hk => absurd hk (Nat.not_lt_zero k)⟩

/-- A run that returns has written the blocks that the reads delivered, or, if a device was left
    behind on which a bad block had been skipped, something from behind the buffer. -/
theorem writeFrom_flashed (cfg : Config) (es : Nat) (ts : List Target) (st : St) (fds : List Fd)
    {left : List UInt8} (hts : ∀ t ∈ ts, t.1.erasesize = es) (hclean : Clean st)
    (hskip : st.skipBadBlocks = 0) (hbuf : st.buf.length ≤ es)
    (hread : Delivers es st.script st.rest st.buf blocks left)
    (hret : writeFrom cfg ts st = .returned fds) :
    (HandsOverClean cfg (ts.map Prod.fst) blocks.length ∧ FlashedOver cfg ts fds blocks) ∨
      (¬HandsOverClean cfg (ts.map Prod.fst) blocks.length ∧ ∃ fd ∈ fds, WroteOutside es fd) := by
  -- one device at a time: what this one leaves in the buffer is the first block of the next one
  induction ts generalizing st fds blocks with
  | nil => cases hret
  | cons t ts ih =>
    obtain rfl : t.1.erasesize = es := hts t List.mem_cons_self
    have hended := writeLoop_ended cfg t.1 (!ts.isEmpty) (st.rest.length + 2) 0
      { st with fd := openTarget cfg t, w := 0, e := 0 }
      ⟨hclean.offset_eq, hclean.skip_eq, hclean.jffs2file_eq⟩ hbuf
      (.inr (cursors_open cfg t.1 hskip rfl rfl))
    have hzero : (t.1.takenBelow 0).length = 0 := rfl
    obtain ⟨st', ⟨hdone, rfl⟩ | ⟨hresume, fds', hrest, rfl⟩⟩ := writeFrom_returned hret
    · -- the image ends on this device
      rw [hdone] at hended
      obtain ⟨blocks', left', hread', hflash, htaken⟩ := hended
      obtain ⟨rfl, -⟩ := hread.unique hread'
      refine .inl ⟨htaken.imp_right fun ⟨b, hpass, hcount⟩ => .inl ⟨b, hpass, ?_⟩, .last hflash⟩
      omega
    · -- an erase failed, and the block is handed over
      rw [hresume] at hended
      obtain ⟨hno, before, hmore, hlen, g, hpass, hstop, hcount, hgood, hdirty⟩ := hended
      obtain ⟨more, left', hread'⟩ := exists_delivers t.1.erasesize st'.script st'.rest st'.buf
      obtain ⟨rfl, rfl⟩ := hread.unique (hmore more left' hread')
      have hpos : 0 < more.length := by
        cases hread' with
        | block => exact Nat.succ_pos _
        | stop hfill =>
          rw [fillBuf_of_full _ _ _ _ hlen] at hfill
          have hnil := congrArg Prod.fst hfill
          simp only at hnil
          rw [hnil, List.length_nil] at hlen
          have hes := t.1.erasesize_pos
          omega
      have hn : (t.1.takenBelow g).length < (before ++ more).length := by
        rw [List.length_append]
        omega
      have hts' : ∀ t' ∈ ts, t'.1.erasesize = t.1.erasesize :=
        fun t' ht' => hts t' (List.mem_cons_of_mem _ ht')
      rw [List.map_cons, handsOverClean_cons_iff hno hpass hstop hn]
      -- no bad block skipped: the next device starts clean; otherwise its first write is out of
      -- place
      by_cases hall : ∀ k < g, t.1.asked k = some false
      · obtain ⟨hflash, hclean', hskip'⟩ := hgood hall
        have hg := (t.1.length_takenBelow_eq_iff g).mpr hall
        have hsub : (before ++ more).length - g = more.length := by
          rw [List.length_append]
          omega
        rw [hsub]
        obtain ⟨hover, hflash'⟩ | ⟨hnot, fd, hfd, hout⟩ :=
          ih st' fds' hts' hclean' hskip' (Nat.le_of_eq hlen) hread' hrest
        · exact .inl ⟨⟨hall, hover⟩, .next hflash hflash'⟩
        · exact .inr ⟨fun h => hnot h.2, fd, List.mem_cons_of_mem _ hfd, hout⟩
      · obtain ⟨fd, hfd, hout⟩ :=
          writeFrom_outside cfg t.1.erasesize ts st' fds' hts' (hdirty hall) hrest
        exact .inr ⟨fun h => hall h.1, fd, List.mem_cons_of_mem _ hfd, hout⟩

/-! ### The whole image -/

/-- All bytes of the image have been read, in pieces of at most a block, and every piece has been
    written whole, filled up to a block. -/
def WholeImage (cfg : Config) (es : Nat) (ts : List Target) (img : Image) (fds : List Fd) : Prop :=
  ∃ pieces : List (List UInt8), pieces.flatten = img.bytes ∧
    Delivers es img.script img.rest img.buf (pieces.map (padBlock es)) [] ∧
    FlashedOver cfg ts fds (pieces.map (padBlock es))

/-- `mtd_write` to devices of one erase size, without `-j`, when it returns 0: every byte of the
    image has been read and written exactly if no read failed on an empty buffer while bytes were
    left, and no bad block was skipped on a device that was left behind. -/
theorem mtdWrite_whole_iff (cfg : Config) (es : Nat) (ts : List Target)
    (hts : ∀ t ∈ ts, t.1.erasesize = es) (img : Image) (hbuf : img.buf.length ≤ es)
    (fds : List Fd) (hret : mtdWrite cfg false ts img = .returned fds) :
    WholeImage cfg es ts img fds ↔
      ∃ n, imageBlocks es img = some n ∧ HandsOverClean cfg (ts.map Prod.fst) n := by
  have hes : 0 < es := by
    cases ts with
    | nil => cases hret
    | cons t ts => exact hts t List.mem_cons_self ▸ t.1.erasesize_pos
  obtain ⟨blocks, left, hread⟩ := exists_delivers es img.script img.rest img.buf
  rw [hread.imageBlocks_eq hes hbuf]
  have hrun := writeFrom_flashed cfg es ts _ fds hts ⟨rfl, rfl, rfl⟩ rfl hbuf hread hret
  constructor
  · rintro ⟨pieces, -, hread', hflash⟩
    obtain ⟨rfl, rfl⟩ := hread.unique hread'
    refine ⟨_, rfl, ?_⟩
    obtain ⟨hover, -⟩ | ⟨-, fd, hfd, hout⟩ := hrun
    · exact hover
    · exact absurd hout (hflash.inBuffer (hread.length_eq hbuf) fd hfd)
  · rintro ⟨n, hn, hover⟩
    -- the reads have left nothing
    split at hn
    case isFalse => cases hn
    case isTrue hleft =>
      cases hn
      rw [List.length_eq_zero_iff] at hleft
      subst hleft
      obtain ⟨pieces, rfl, hbytes⟩ := hread.pieces
      rw [List.append_nil] at hbytes
      obtain ⟨-, hflash⟩ | ⟨hnot, -⟩ := hrun
      · exact ⟨pieces, hbytes, hread, hflash⟩
      · exact absurd hover hnot

/-- Three bytes, with a read that fails inside the first block. -/
theorem mtdWrite_whole_iff_smallNor :
    ∃ fds, mtdWrite plainConfig false [(smallNor, fun _ => 0)]
        ⟨[], [1, 2, 3], [.short 1, .error]⟩ = .returned fds ∧
      (WholeImage plainConfig 2 [(smallNor, fun _ => 0)] ⟨[], [1, 2, 3], [.short 1, .error]⟩ fds ↔
        ∃ n, imageBlocks 2 ⟨[], [1, 2, 3], [.short 1, .error]⟩ = some n ∧
          HandsOverClean plainConfig [smallNor] n) := by
  have hlogs : (mtdWrite plainConfig false [(smallNor, fun _ => 0)]
      ⟨[], [1, 2, 3], [.short 1, .error]⟩).logs =
        some [[.erase 0, .write 0 0 2, .erase 2, .write 2 0 2]] := by decide
  obtain ⟨fds, hret, -⟩ := returned_of_logs hlogs
  exact ⟨fds, hret, mtdWrite_whole_iff plainConfig 2 [(smallNor, fun _ => 0)] (by decide)
    ⟨[], [1, 2, 3], [.short 1, .error]⟩ (by decide) fds hret⟩

/-- A read fails after the first block, and `mtd_write` returns 0. -/
theorem mtdWrite_truncated :
    ∃ fds, mtdWrite plainConfig false [(smallNor, fun _ => 0)]
        ⟨[], [1, 2, 3], [.short 2, .error]⟩ = .returned fds ∧
      ¬WholeImage plainConfig 2 [(smallNor, fun _ => 0)] ⟨[], [1, 2, 3], [.short 2, .error]⟩ fds := by
  have hlogs : (mtdWrite plainConfig false [(smallNor, fun _ => 0)]
      ⟨[], [1, 2, 3], [.short 2, .error]⟩).logs = some [[.erase 0, .write 0 0 2]] := by decide
  obtain ⟨fds, hret, -⟩ := returned_of_logs hlogs
  refine ⟨fds, hret, ?_⟩
  rintro ⟨pieces, -, hread, -⟩
  have hblocks := hread.imageBlocks_eq (by decide) (by decide)
  -- the second turn stops with a byte left
  have hnone : imageBlocks 2 ⟨[], [1, 2, 3], [.short 2, .error]⟩ = none := by decide
  rw [hnone] at hblocks
  cases hblocks

end HandsomeMod.Native.Mtd
