import HandsomeMod.Native.Jffs2

/-!
# The erase block buffer of `jffs2.c`

What has been put together is a list of full blocks, and the bytes of the block in the making. Over
such an output, `pad` fills the block up and hands it on when it is full, `prep_eraseblock` starts it
with the clean marker, and data goes to its end. The functions over the buffer do just that as long
as the data fits.
-/

namespace HandsomeMod.Native.Jffs2

open ForStd
open Mtd (MtdDev Fd ReadRes)

variable {c : Cfg} {d : MtdDev} {st st' : St} {size : Nat}

/-! ### Output -/

/-- Full blocks, and the bytes of the next one. -/
structure Out where
  blocks : List (List UInt8)
  cur : List UInt8

/-- Fill up to a multiple of `size`. -/
def fillTo (size : Nat) (l : List UInt8) : List UInt8 :=
  l ++ List.replicate ((size - l.length % size) % size) 0xff

def Out.pad (es size : Nat) (o : Out) : Out :=
  if (fillTo size o.cur).length = es then ⟨o.blocks ++ [fillTo size o.cur], []⟩
  else ⟨o.blocks, fillTo size o.cur⟩

def Out.prep (c : Cfg) (o : Out) : Out := if o.cur = [] then ⟨o.blocks, cleanmarker c⟩ else o

def Out.put (bytes : List UInt8) (o : Out) : Out := ⟨o.blocks, o.cur ++ bytes⟩

/-- What is filled stays. -/
theorem fillTo_of_dvd {l : List UInt8} (h : l.length % size = 0) : fillTo size l = l := by
  rw [fillTo, h, Nat.sub_zero, Nat.mod_self, List.replicate_zero, List.append_nil]

/-- Filling gives a multiple of the size. -/
theorem length_fillTo_mod (hsize : 0 < size) (l : List UInt8) : (fillTo size l).length % size = 0 := by
  have hlt := Nat.mod_lt l.length hsize
  rw [fillTo, List.length_append, List.length_replicate, Nat.add_mod, Nat.mod_mod]
  obtain hzero | hpos := Nat.eq_zero_or_pos (l.length % size)
  · rw [hzero, Nat.sub_zero, Nat.mod_self, Nat.zero_add, Nat.zero_mod]
  · rw [Nat.mod_eq_of_lt (by omega : size - l.length % size < size),
      Nat.add_sub_cancel' (Nat.le_of_lt hlt), Nat.mod_self]

/-- Filling stays inside of a block that is a multiple of the size. -/
theorem length_fillTo_le {es : Nat} {l : List UInt8} (hsize : 0 < size) (hdvd : size ∣ es)
    (hle : l.length ≤ es) : (fillTo size l).length ≤ es := by
  have hlt := Nat.mod_lt l.length hsize
  have hmod := length_fillTo_mod hsize l
  rw [fillTo, List.length_append, List.length_replicate] at hmod ⊢
  have hless := Nat.mod_lt (size - l.length % size) hsize
  obtain ⟨k, rfl⟩ := hdvd
  obtain ⟨m, hm⟩ := Nat.dvd_of_mod_eq_zero hmod
  rw [hm]
  -- the next multiple behind the length
  have hmk : size * m < size * (k + 1) := by
    rw [Nat.mul_succ]
    omega
  exact Nat.mul_le_mul_left size (Nat.le_of_lt_succ (Nat.lt_of_mul_lt_mul_left hmk))

/-- Less than the size is filled to just the size. -/
theorem length_fillTo_of_lt {l : List UInt8} (hpos : 0 < l.length) (hlt : l.length < size) :
    (fillTo size l).length = size := by
  rw [fillTo, List.length_append, List.length_replicate, Nat.mod_eq_of_lt hlt,
    Nat.mod_eq_of_lt (by omega : size - l.length < size)]
  omega

/-- Padding leaves room in the block. -/
theorem Out.length_pad_lt {es : Nat} {o : Out} (hsize : 0 < size) (hdvd : size ∣ es) (hes : 0 < es)
    (hle : o.cur.length ≤ es) : (o.pad es size).cur.length < es := by
  have hfill := length_fillTo_le hsize hdvd hle
  rw [Out.pad]
  split
  · exact hes
  · show (fillTo size o.cur).length < es
    omega

/-! ### The buffer holds the output -/

/-- The buffer holds the bytes of the block in the making, and the full blocks were written. -/
structure Holds (d : MtdDev) (o : Out) (st : St) : Prop where
  length_buf : st.buf.length = d.erasesize
  ofs_eq : st.ofs = o.cur.length
  take_eq : st.buf.take st.ofs = o.cur
  blocks_eq : st.blocks = o.blocks

/-- What has been put together so far. -/
def St.out (st : St) : Out := ⟨st.blocks, st.buf.take st.ofs⟩

/-- A state holds its own output. -/
theorem St.out_holds (hbuf : st.buf.length = d.erasesize) (hofs : st.ofs ≤ d.erasesize) :
    Holds d st.out st :=
  ⟨hbuf, (List.length_take_of_le (hbuf ▸ hofs)).symm, rfl, rfl⟩

/-- The output of the current block is inside of it. -/
theorem Holds.length_le {o : Out} (h : Holds d o st) : o.cur.length ≤ d.erasesize := by
  rw [← h.take_eq, List.length_take, h.length_buf]
  exact Nat.min_le_right _ _

/-- The globals and the nodes stay. -/
structure Kept (st st' : St) : Prop where
  globals_eq : st'.globals = st.globals
  nodes_eq : st'.nodes = st.nodes

/-- Nothing is changed. -/
theorem Kept.rfl' (st : St) : Kept st st := ⟨rfl, rfl⟩

/-- What both steps keep is kept. -/
theorem Kept.trans {st'' : St} (h : Kept st st') (h' : Kept st' st'') : Kept st st'' :=
  ⟨h'.globals_eq.trans h.globals_eq, h'.nodes_eq.trans h.nodes_eq⟩

/-- Skipping bad blocks ends on the device, or with exit. -/
private theorem skipBad_ensures (fuel : Nat) (fd : Fd) (mtdofs : Nat)
    (h : d.size ≤ mtdofs + fuel * d.erasesize) :
    Ensures (· = Fault.exit) (fun _ => True) (skipBad d (fuel + 1) fd mtdofs) := by
  induction fuel generalizing fd mtdofs with
  | zero =>
    rw [skipBad]
    cases Mtd.mtdBlockIsBad d mtdofs with
    | none => rfl
    | some bad =>
      simp only
      rw [if_neg (by omega)]
      trivial
  -- a bad block moves the offset one block on, so the bound on the fuel goes down with it
  | succ fuel ih =>
    rw [skipBad]
    cases Mtd.mtdBlockIsBad d mtdofs with
    | none => rfl
    | some bad =>
      simp only
      split
      · exact ih _ _ (by rw [Nat.succ_mul] at h; omega)
      · trivial

/-- Writing a block ends the program, or hands the buffer on. -/
private theorem flush_ensures (d : MtdDev) (st : St) :
    Ensures (· = Fault.exit)
      (fun st' => Kept st st' ∧ st'.buf = st.buf ∧ st'.ofs = st.ofs ∧
        st'.blocks = st.blocks ++ [st.buf]) (flush d st) := by
  have hsize : d.size ≤ st.mtdofs + d.nblocks * d.erasesize := by
    rw [MtdDev.nblocks, Nat.div_mul_cancel d.size_dvd]
    exact Nat.le_add_left _ _
  exact (skipBad_ensures d.nblocks st.fd st.mtdofs hsize).bind fun _ _ => ⟨⟨rfl, rfl⟩, rfl, rfl, rfl⟩

/-- Bytes that fit are appended to the output. -/
private theorem copy_holds {o : Out} (bytes : List UInt8) (h : Holds d o st)
    (hfit : o.cur.length + bytes.length ≤ d.erasesize) :
    ∃ buf, copy bytes st = .ok { st with buf := buf } ∧
      Holds d (o.put bytes) { st with buf := buf, ofs := st.ofs + bytes.length } := by
  have hle : st.ofs + bytes.length ≤ st.buf.length := by
    rw [h.ofs_eq, h.length_buf]
    exact hfit
  have hcopy := memcpy_of_le hle
  refine ⟨_, by rw [copy, hcopy], ?_, ?_, ?_, h.blocks_eq⟩
  · exact (memcpy_length hcopy).trans h.length_buf
  · show st.ofs + bytes.length = (o.cur ++ bytes).length
    rw [h.ofs_eq, List.length_append]
  · exact (memcpy_take hcopy).trans (congrArg (· ++ bytes) h.take_eq)

/-- `memset` appends equal bytes. -/
private theorem fill_eq_copy (n : Nat) (a : UInt8) (st : St) :
    fill n a st = copy (List.replicate n a) st := by
  rw [fill, copy, memset_eq_memcpy]

/-- A full block is written, and the next one is empty. -/
private theorem flush_holds {o : Out} (h : Holds d o st) (hpos : 0 < o.cur.length) :
    Ensures (· = Fault.exit)
      (fun st' => Kept st st' ∧
        Holds d (if o.cur.length = d.erasesize then ⟨o.blocks ++ [o.cur], []⟩ else o) st')
      (if st.ofs % d.erasesize = 0 then flush d { st with ofs := st.ofs % d.erasesize }
        else .ok { st with ofs := st.ofs % d.erasesize }) := by
  have hle := h.length_le
  -- the offset wraps to 0 only when the block is full, and only then is it written out
  by_cases hfull : o.cur.length = d.erasesize
  · have hmod : st.ofs % d.erasesize = 0 := by rw [h.ofs_eq, hfull, Nat.mod_self]
    have hbuf : st.buf = o.cur := by
      rw [← h.take_eq, List.take_of_length_le (by rw [h.length_buf, h.ofs_eq, hfull])]
    rw [if_pos hmod, if_pos hfull]
    refine (flush_ensures d _).mono ?_
    rintro st' ⟨hkept, hbuf', hofs, hblocks⟩
    refine ⟨⟨hkept.globals_eq, hkept.nodes_eq⟩, ?_, ?_, ?_, ?_⟩
    · rw [hbuf', hbuf, hfull]
    · exact hofs.trans hmod
    · rw [hofs]
      simp only [hmod, List.take_zero]
    · rw [hblocks]
      simp only [h.blocks_eq, hbuf]
  · have hmod : st.ofs % d.erasesize = st.ofs := by
      rw [h.ofs_eq]
      exact Nat.mod_eq_of_lt (by omega)
    have hne : st.ofs ≠ 0 := by
      rw [h.ofs_eq]
      omega
    rw [hmod, if_neg hne, if_neg hfull]
    exact ⟨.rfl' st, h⟩

/-- `pad` fills the output, and writes a full block. -/
theorem pad_holds {o : Out} (size : Nat) (hsize : 0 < size) (hdvd : size ∣ d.erasesize)
    (h : Holds d o st) :
    Ensures (· = Fault.exit) (fun st' => Kept st st' ∧ Holds d (o.pad d.erasesize size) st')
      (pad d size st) := by
  have hes := d.erasesize_pos
  have hle := h.length_le
  rw [pad]
  by_cases hdone : st.ofs % size = 0 ∧ st.ofs < d.erasesize
  · -- nothing to do
    rw [if_pos hdone]
    have hfill : fillTo size o.cur = o.cur := fillTo_of_dvd (h.ofs_eq ▸ hdone.1)
    have hlen : o.cur.length ≠ d.erasesize := by
      rw [← h.ofs_eq]
      exact Nat.ne_of_lt hdone.2
    refine ⟨.rfl' st, ?_⟩
    rw [Out.pad, hfill, if_neg hlen]
    exact h
  rw [if_neg hdone]
  by_cases hlt : st.ofs < d.erasesize
  · -- up to the next multiple
    have hrest : st.ofs % size ≠ 0 := fun hzero => hdone ⟨hzero, hlt⟩
    have hmod := Nat.mod_lt st.ofs hsize
    have hput : o.put (List.replicate (size - st.ofs % size) 0xff) = ⟨o.blocks, fillTo size o.cur⟩ := by
      rw [Out.put, fillTo, ← h.ofs_eq, Nat.mod_eq_of_lt (by omega : size - st.ofs % size < size)]
    have hfill := length_fillTo_le hsize hdvd hle
    have hlen : (fillTo size o.cur).length = st.ofs + (size - st.ofs % size) := by
      rw [fillTo, List.length_append, List.length_replicate, ← h.ofs_eq,
        Nat.mod_eq_of_lt (by omega : size - st.ofs % size < size)]
    -- `memset` up to the border is a copy of erased bytes
    obtain ⟨buf, hcopy, hholds⟩ := copy_holds (List.replicate (size - st.ofs % size) 0xff) h
      (by rw [List.length_replicate, ← h.ofs_eq]; omega)
    rw [hput, List.length_replicate] at hholds
    rw [if_pos hlt, fill_eq_copy, hcopy]
    have hflush := flush_holds hholds (by show 0 < (fillTo size o.cur).length; omega)
    exact hflush.mono fun st' ⟨hkept, hst'⟩ => ⟨⟨hkept.globals_eq, hkept.nodes_eq⟩, hst'⟩
  · -- the block is full
    have hfull : o.cur.length = d.erasesize := by
      rw [h.ofs_eq] at hlt
      omega
    have hfill : fillTo size o.cur = o.cur := by
      refine fillTo_of_dvd ?_
      rw [hfull]
      exact Nat.mod_eq_zero_of_dvd hdvd
    rw [if_neg hlt, Out.pad, hfill]
    have hflush := flush_holds h (by omega)
    rw [if_pos hfull] at hflush ⊢
    exact hflush

/-- `prep_eraseblock` puts the clean marker in an empty block. -/
private theorem prep_holds {o : Out} (hmarker : (cleanmarker c).length ≤ d.erasesize)
    (h : Holds d o st) :
    ∃ st', prepEraseblock c d st = .ok st' ∧ Kept st st' ∧ Holds d (o.prep c) st' := by
  rw [prepEraseblock, Out.prep]
  -- only a block with nothing in it gets the marker
  by_cases hpos : 0 < st.ofs
  · have hne : o.cur ≠ [] := by
      rw [h.ofs_eq] at hpos
      exact List.length_pos_iff.mp hpos
    rw [if_pos hpos, if_neg hne]
    exact ⟨st, rfl, .rfl' st, h⟩
  · have hnil : o.cur = [] := by
      rw [h.ofs_eq] at hpos
      exact List.length_eq_zero_iff.mp (by omega)
    rw [if_neg hpos, if_neg (by omega), if_pos hnil]
    obtain ⟨buf, hcopy, hholds⟩ := copy_holds (cleanmarker c) h
      (by rw [hnil, List.length_nil, Nat.zero_add]; exact hmarker)
    rw [hcopy]
    refine ⟨_, rfl, ⟨rfl, rfl⟩, ?_⟩
    rw [Out.put, hnil, List.nil_append] at hholds
    exact hholds

/-- Data that fits goes to the end of the block in the making. -/
theorem addData_holds {o : Out} (c : Cfg) (bytes : List UInt8) (h : Holds d o st)
    (hfit : o.cur.length + bytes.length ≤ d.erasesize) :
    ∃ st', addData c d bytes st = .ok st' ∧ Kept st st' ∧ Holds d (o.put bytes) st' := by
  obtain ⟨buf, hcopy, hholds⟩ := copy_holds bytes h hfit
  rw [addData, if_neg (by rw [h.ofs_eq]; omega)]
  simp only [pure_bind, hcopy]
  exact ⟨_, rfl, ⟨rfl, rfl⟩, hholds⟩

/-! ### Directory entries -/

/-- A field of 16 bits has two bytes. -/
theorem length_jint16 (c : Cfg) (v : Nat) : (jint16 c v).length = 2 := length_bytesAt _ _ _

/-- A field of 32 bits has four bytes. -/
theorem length_jint32 (c : Cfg) (v : UInt32) : (jint32 c v).length = 4 := length_bytesAt _ _ _

/-- The clean marker has 12 bytes. -/
theorem length_cleanmarker (c : Cfg) : (cleanmarker c).length = 12 := by
  rw [cleanmarker]
  cases c.endian <;> rfl

/-- The header of a dirent has its size. -/
theorem RawDirent.length_header (c : Cfg) (de : RawDirent) :
    (de.header c).length = sizeofDirent := by
  simp only [header, List.length_append, length_jint16, length_jint32, List.length_cons,
    List.length_nil, sizeofDirent]

/-- The header of an inode has its size. -/
theorem RawInode.length_header (c : Cfg) (ri : RawInode) : (ri.header c).length = sizeofInode := by
  have hsum : 2 + 2 + 4 + 4 + 4 + 4 + 4 + 2 + 2 + 4 + 4 + 4 + 4 + 4 + 4 + 4 + (0 + 1 + 1) + 2 +
      4 + 4 = sizeofInode := rfl
  unfold RawInode.header
  simp only [List.length_append, length_jint16, length_jint32, List.length_cons, List.length_nil]
  exact hsum

/-- The directory entry that is put together next. -/
def Globals.nextDirent (c : Cfg) (g : Globals) (name : List UInt8) (type : UInt8)
    (parent : UInt32) : RawDirent :=
  mkDirent c name type parent (g.lastIno + 1) g.lastVersion

/-- The globals behind a directory entry. -/
def Globals.behindDirent (g : Globals) : Globals :=
  { g with lastIno := g.lastIno + 2, lastVersion := g.lastVersion + 1 }

/-- A directory entry for a name of `len` bytes fits into the block. -/
def DirentFits (c : Cfg) (es : Nat) (o : Out) (len : Nat) : Prop :=
  (o.prep c).cur.length + (sizeofDirent + len) ≤ es

/-- The bytes of a directory entry up to the end that `nsize` gives. -/
def RawDirent.shown (c : Cfg) (de : RawDirent) : List UInt8 :=
  (de.header c ++ de.name).take (sizeofDirent + de.nsize.toNat)

/-- The part of the output in front of a position. -/
theorem Holds.take {o : Out} {n : Nat} (h : Holds d o st) (hn : n ≤ st.ofs) :
    Holds d ⟨o.blocks, o.cur.take n⟩ { st with ofs := n } := by
  refine ⟨h.length_buf, ?_, ?_, h.blocks_eq⟩
  · rw [h.ofs_eq] at hn
    exact (List.length_take_of_le hn).symm
  · show st.buf.take n = o.cur.take n
    rw [← h.take_eq, List.take_take, Nat.min_eq_left hn]

/-- The comparison of `size_t` finds room wherever `ofs` is. -/
private theorem noRoom_eq_false {ofs len : Nat} (hint : d.erasesize < 2 ^ 31)
    (hlt : ofs < d.erasesize)
    (hlen : sizeofDirent + len ≤ d.erasesize) : noRoom c d ofs len = false := by
  rw [noRoom, decide_eq_false_iff_not, Int.not_lt]
  have hpow : (2 : Int) ^ 32 ≤ 2 ^ c.sizeBits := by
    exact_mod_cast Nat.pow_le_pow_right (by decide) c.le_sizeBits
  -- a negative difference becomes a number close to 2 ^ sizeBits
  have hadd : ((ofs : Int) - d.erasesize) % 2 ^ c.sizeBits =
      (ofs : Int) - d.erasesize + 2 ^ c.sizeBits := by
    rw [← Int.add_emod_right]
    exact Int.emod_eq_of_lt (by omega) (by omega)
  rw [hadd]
  omega

/-- `add_dirent` appends the node of a directory entry that fits. -/
theorem addDirent_holds {o : Out} {name : List UInt8} (type : UInt8) (parent : UInt32)
    (hint : d.erasesize < 2 ^ 31) (hdvd : 4 ∣ d.erasesize) (h : Holds d o st)
    (hlt : o.cur.length < d.erasesize) (hfit : DirentFits c d.erasesize o name.length) :
    Ensures (· = Fault.exit)
      (fun r => r.1 = st.globals.lastIno + 1 ∧ r.2.globals = st.globals.behindDirent ∧
        r.2.nodes = st.nodes ++ [.dirent (st.globals.nextDirent c name type parent)] ∧
        Holds d (((o.prep c).put ((st.globals.nextDirent c name type parent).shown c)).pad
          d.erasesize 4) r.2)
      (addDirent c d name type parent st) := by
  rw [DirentFits] at hfit
  have hlen : sizeofDirent + name.length ≤ d.erasesize := by omega
  rw [addDirent, noRoom_eq_false hint (by rw [h.ofs_eq]; exact hlt) hlen]
  simp only [Bool.false_eq_true, ↓reduceIte, pure_bind]
  have hmarker : (cleanmarker c).length ≤ d.erasesize := by
    rw [length_cleanmarker]
    have : sizeofDirent = 40 := rfl
    omega
  obtain ⟨st₁, hprep, hkept, h₁⟩ := prep_holds hmarker h
  rw [hprep, ok_bind, hkept.globals_eq]
  have hde : mkDirent c name type parent (st.globals.lastIno + 1) st.globals.lastVersion =
      st.globals.nextDirent c name type parent := rfl
  rw [hde]
  -- from here on the dirent is known by its fields only
  generalize hd : st.globals.nextDirent c name type parent = de
  have hname : de.name = name := by rw [← hd]; rfl
  have hnsize : de.nsize = UInt8.ofNat name.length := by rw [← hd]; rfl
  have hino : de.ino = st.globals.lastIno + 1 := by rw [← hd]; rfl
  have hbytes : (de.header c ++ de.name).length = sizeofDirent + name.length := by
    rw [List.length_append, de.length_header, hname]
  obtain ⟨buf, hcopy, h₂⟩ := copy_holds (de.header c ++ de.name) h₁ (by rw [hbytes]; exact hfit)
  rw [hcopy, ok_bind]
  -- `nsize` is one byte: of a longer name only the remainder counts, and the offset falls behind
  -- the copy
  have hle : de.nsize.toNat ≤ name.length := by
    rw [hnsize, UInt8.toNat_ofNat']
    exact Nat.mod_le _ _
  have h₃ := h₂.take (n := st₁.ofs + (sizeofDirent + de.nsize.toNat))
    (by simp only [hbytes]; omega)
  have hcur : ((o.prep c).put (de.header c ++ de.name)).cur.take
      (st₁.ofs + (sizeofDirent + de.nsize.toNat)) = (o.prep c).cur ++ de.shown c := by
    rw [h₁.ofs_eq, Out.put, List.take_length_add_append]
    rfl
  rw [hcur] at h₃
  -- the counters and the node log are no part of the buffer
  have h₄ : Holds d ((o.prep c).put (de.shown c))
      { st₁ with
        buf := buf, globals := st.globals.behindDirent
        ofs := st₁.ofs + (sizeofDirent + de.nsize.toNat), nodes := st₁.nodes ++ [.dirent de] } :=
    ⟨h₃.length_buf, h₃.ofs_eq, h₃.take_eq, h₃.blocks_eq⟩
  refine (pad_holds 4 (by decide) hdvd h₄).bind fun st' ⟨hkept', hholds⟩ => ?_
  refine ⟨hino, hkept'.globals_eq, ?_, hholds⟩
  rw [hkept'.nodes_eq]
  exact congrArg (· ++ [Node.dirent de]) hkept.nodes_eq

/-- `prep_eraseblock` adds to the output what the format says, or faults. -/
private theorem prep_ensures {o : Out} (c : Cfg) (h : Holds d o st) :
    Ensures (fun _ => True) (Holds d (o.prep c)) (prepEraseblock c d st) := by
  by_cases hmarker : (cleanmarker c).length ≤ d.erasesize
  · obtain ⟨st', hprep, -, h'⟩ := prep_holds hmarker h
    rw [hprep]
    exact h'
  rw [prepEraseblock]
  -- a block that is begun has its marker
  by_cases hpos : 0 < st.ofs
  · have hne : o.cur ≠ [] := by
      rw [h.ofs_eq] at hpos
      exact List.length_pos_iff.mp hpos
    rw [if_pos hpos, Out.prep, if_neg hne]
    exact h
  · rw [if_neg hpos, if_pos (Nat.lt_of_not_le hmarker)]
    trivial

/-- Data that does not fit goes past the end of the buffer. -/
private theorem copy_outside {o : Out} {bytes : List UInt8} (h : Holds d o st)
    (hfit : ¬o.cur.length + bytes.length ≤ d.erasesize) : copy bytes st = .error .outside := by
  have hnone : memcpy st.buf st.ofs bytes = none := by
    rw [memcpy_eq_none_iff, h.length_buf, h.ofs_eq]
    omega
  rw [copy, hnone]

/-- A directory entry that does not fit is not put together. -/
theorem addDirent_outside {o : Out} {name : List UInt8} (type : UInt8) (parent : UInt32)
    (hint : d.erasesize < 2 ^ 31) (h : Holds d o st) (hlt : o.cur.length < d.erasesize)
    (hfit : ¬DirentFits c d.erasesize o name.length) :
    Ensures (fun _ => True) (fun _ => False) (addDirent c d name type parent st) := by
  -- with or without the padding, the record does not fit the block it is written to
  have hroom : Ensures (fun _ => True)
      (fun st₁ => ∃ o₁, Holds d o₁ st₁ ∧ ¬DirentFits c d.erasesize o₁ name.length)
      (if noRoom c d st.ofs name.length then pad d d.erasesize st else pure st) := by
    split
    case isFalse => exact ⟨o, h, hfit⟩
    case isTrue hfull =>
      -- the name alone is larger than a block
      have hlen : ¬sizeofDirent + name.length ≤ d.erasesize := by
        intro hlen
        rw [noRoom_eq_false hint (by rw [h.ofs_eq]; exact hlt) hlen] at hfull
        cases hfull
      have hpad := pad_holds d.erasesize d.erasesize_pos (Nat.dvd_refl _) h
      cases hst₁ : pad d d.erasesize st with
      | error e => trivial
      | ok st₁ =>
        rw [hst₁] at hpad
        refine ⟨_, hpad.2, fun hfit₁ => hlen ?_⟩
        rw [DirentFits] at hfit₁
        omega
  rw [addDirent]
  by_cases hfull : noRoom c d st.ofs name.length = true
  -- in both branches the copy behind the cleanmarker leaves the buffer
  all_goals
    simp only [hfull, Bool.false_eq_true, ↓reduceIte] at hroom ⊢
    refine hroom.bind fun st₁ ⟨o₁, h₁, hfit₁⟩ => (prep_ensures c h₁).bind fun st₂ h₂ => ?_
    rw [copy_outside h₂]
    · trivial
    · rw [List.length_append, RawDirent.length_header]
      exact hfit₁

/-- What is left of the block. -/
private theorem rbytes_eq {o : Out} (h : Holds d o st) (hlt : o.cur.length < d.erasesize) :
    rbytes d st = d.erasesize - o.cur.length := by
  rw [rbytes, h.ofs_eq, Nat.mod_eq_of_lt hlt]

/-- A block that is padded as a whole is handed on. -/
theorem Out.cur_pad_self {es : Nat} {o : Out} (hes : 0 < es) (hle : o.cur.length ≤ es) :
    (o.pad es es).cur = [] := by
  rw [pad]
  obtain heq | hlt := Nat.eq_or_lt_of_le hle
  · rw [fillTo_of_dvd (by rw [heq, Nat.mod_self]), if_pos heq]
  by_cases hnil : o.cur = []
  · rw [hnil, fillTo_of_dvd (Nat.zero_mod es), if_neg (by rw [List.length_nil]; omega)]
  · rw [if_pos (length_fillTo_of_lt (List.length_pos_iff.mpr hnil) hlt)]

/-- A directory entry behind the output. -/
def Out.dirent (c : Cfg) (es : Nat) (de : RawDirent) (o : Out) : Out :=
  ((o.prep c).put (de.shown c)).pad es 4

/-- Where the directory entry for a name of `len` bytes ends, in its block. -/
def direntEnd (c : Cfg) (es : Nat) (o : Out) (len : Nat) : Nat :=
  let pos := (o.prep c).cur.length + (sizeofDirent + len % 256)
  let pos := pos + (4 - pos % 4) % 4
  if pos = es then 0 else pos

/-- A directory entry takes its header and the low byte of the length of its name. -/
private theorem length_shown (g : Globals) (name : List UInt8) (type : UInt8) (parent : UInt32) :
    ((g.nextDirent c name type parent).shown c).length = sizeofDirent + name.length % 256 := by
  have hnsize : (g.nextDirent c name type parent).nsize.toNat = name.length % 256 :=
    UInt8.toNat_ofNat'
  have hle := Nat.mod_le name.length 256
  have hname : (g.nextDirent c name type parent).name = name := rfl
  rw [RawDirent.shown, List.length_take, List.length_append, RawDirent.length_header, hnsize, hname]
  omega

/-- The output behind a directory entry that fits. -/
theorem Out.length_dirent {es : Nat} {o : Out} {name : List UInt8} (g : Globals) (type : UInt8)
    (parent : UInt32) (hdvd : 4 ∣ es) (hfit : DirentFits c es o name.length) :
    (o.dirent c es (g.nextDirent c name type parent)).cur.length = direntEnd c es o name.length ∧
      direntEnd c es o name.length < es := by
  have hle := Nat.mod_le name.length 256
  have hhead : sizeofDirent = 40 := rfl
  rw [DirentFits] at hfit
  have hput : ((o.prep c).put ((g.nextDirent c name type parent).shown c)).cur.length =
      (o.prep c).cur.length + (sizeofDirent + name.length % 256) := by
    rw [put, List.length_append, length_shown]
  have hfill : (fillTo 4 ((o.prep c).put ((g.nextDirent c name type parent).shown c)).cur).length =
      (o.prep c).cur.length + (sizeofDirent + name.length % 256) +
        (4 - ((o.prep c).cur.length + (sizeofDirent + name.length % 256)) % 4) % 4 := by
    rw [fillTo, List.length_append, List.length_replicate, hput]
  -- the record ends inside the block, so the padding does not close it
  have hlt := Out.length_pad_lt (o := (o.prep c).put ((g.nextDirent c name type parent).shown c))
    (by decide : 0 < 4) hdvd (by omega) (by rw [hput]; omega)
  have heq : (o.dirent c es (g.nextDirent c name type parent)).cur.length =
      direntEnd c es o name.length := by
    rw [dirent, pad, direntEnd, ← hfill]
    split
    · rfl
    · rfl
  exact ⟨heq, heq ▸ hlt⟩

/-- The inode node of a directory, in this block or in the next one. -/
def Out.dirInode (c : Cfg) (es : Nat) (ri : RawInode) (o : Out) : Out :=
  (((if es - o.cur.length < sizeofInode then o.pad es es else o).prep c).put
    (Node.bytes c (.inode ri))).pad es 4

/-- `add_dir` puts together a directory entry that fits and an inode node. -/
theorem addDir_holds {o : Out} {name : List UInt8} {parent : UInt32} (hint : d.erasesize < 2 ^ 31)
    (hdvd : 4 ∣ d.erasesize) (hes : (cleanmarker c).length + sizeofInode ≤ d.erasesize)
    (h : Holds d o st) (hlt : o.cur.length < d.erasesize)
    (hfit : DirentFits c d.erasesize o name.length) :
    Ensures (· = Fault.exit)
      (fun r => r.1 = st.globals.lastIno + 1 ∧ r.2.globals = st.globals.behindDirent ∧
        r.2.nodes = st.nodes ++ [.dirent (st.globals.nextDirent c name dtDir parent),
          .inode (mkDirInode c (st.globals.lastIno + 1))] ∧
        Holds d ((o.dirent c d.erasesize (st.globals.nextDirent c name dtDir parent)).dirInode c
          d.erasesize (mkDirInode c (st.globals.lastIno + 1))) r.2)
      (addDir c d name parent st) := by
  obtain ⟨hend, hendlt⟩ := Out.length_dirent st.globals dtDir parent hdvd hfit
  generalize hde : st.globals.nextDirent c name dtDir parent = de at hend
  generalize hri : mkDirInode c (st.globals.lastIno + 1) = ri
  have hbytes : Node.bytes c (.inode ri) = ri.header c := by
    rw [← hri]
    exact List.append_nil _
  have hadd := addDirent_holds dtDir parent hint hdvd h hlt hfit
  rw [hde] at hadd
  rw [addDir]
  refine hadd.bind fun r ⟨hino, hglobals, hnodes, h₁⟩ => ?_
  obtain ⟨inode, st₁⟩ := r
  simp only at hino hglobals hnodes h₁ ⊢
  rw [hino, hri]
  have h₁' : Holds d (o.dirent c d.erasesize de) st₁ := h₁
  have hlt₁ : (o.dirent c d.erasesize de).cur.length < d.erasesize := hend ▸ hendlt
  generalize o.dirent c d.erasesize de = o₁ at h₁' hlt₁
  -- the block in which there is room
  have hroom : Ensures (· = Fault.exit)
      (fun st₂ => Kept st₁ st₂ ∧ Holds d
        (if d.erasesize - o₁.cur.length < sizeofInode then o₁.pad d.erasesize d.erasesize else o₁) st₂)
      (if rbytes d st₁ < sizeofInode then pad d d.erasesize st₁ else pure st₁) := by
    rw [rbytes_eq h₁' hlt₁]
    split
    · exact pad_holds d.erasesize d.erasesize_pos (Nat.dvd_refl _) h₁'
    · exact ⟨.rfl' st₁, h₁'⟩
  -- the inode fits: behind a fresh cleanmarker by the bound on the block, else by the test
  have hle : ((if d.erasesize - o₁.cur.length < sizeofInode then o₁.pad d.erasesize d.erasesize
      else o₁).prep c).cur.length + (Node.bytes c (.inode ri)).length ≤ d.erasesize := by
    rw [hbytes, ri.length_header, Out.prep]
    split
    case isTrue =>
      rw [if_pos (Out.cur_pad_self d.erasesize_pos h₁'.length_le)]
      exact hes
    case isFalse =>
      split
      · exact hes
      · omega
  -- the rest is the same for both answers of the test
  by_cases hfull : rbytes d st₁ < sizeofInode
  all_goals
    simp only [hfull, ↓reduceIte] at hroom ⊢
    refine hroom.bind fun st₂ ⟨hkept₂, h₂⟩ => ?_
    obtain ⟨st₃, hprep, hkept₃, h₃⟩ := prep_holds (c := c) (by omega) h₂
    obtain ⟨st₄, hadd, hkept₄, h₄⟩ := addData_holds c (Node.bytes c (.inode ri)) h₃ hle
    rw [hprep, ok_bind, ← hbytes, hadd, ok_bind]
    have hkept := (hkept₂.trans hkept₃).trans hkept₄
    have h₄' : Holds d _ { st₄ with nodes := st₄.nodes ++ [.inode ri] } :=
      ⟨h₄.length_buf, h₄.ofs_eq, h₄.take_eq, h₄.blocks_eq⟩
    refine (pad_holds 4 (by decide) hdvd h₄').bind fun st₅ ⟨hkept₅, h₅⟩ => ?_
    refine ⟨rfl, ?_, ?_, h₅⟩
    · rw [hkept₅.globals_eq]
      exact hkept.globals_eq.trans hglobals
    · rw [hkept₅.nodes_eq]
      simp only [hkept.nodes_eq, hnodes, List.append_assoc, List.cons_append, List.nil_append]

/-! ### Room for data -/

/-- Where a node with more than 128 bytes of data goes: to this block, or to the next one. -/
def Out.room (c : Cfg) (es : Nat) (o : Out) : Option Out :=
  if sizeofInode + 128 < es - o.cur.length then some o
  else if (cleanmarker c).length + sizeofInode + 128 < es then some ((o.pad es es).prep c)
  else none

/-- Room for a piece of a file is more than its header and 128 bytes. -/
theorem Out.length_room {es : Nat} {o o' : Out} (hle : o.cur.length ≤ es)
    (h : o.room c es = some o') : o'.cur.length + sizeofInode + 128 < es := by
  rw [room] at h
  split at h
  case isTrue hroom =>
    cases h
    omega
  case isFalse =>
    split at h
    -- a new block is opened, and its marker leaves room
    case isTrue hes =>
      cases h
      rw [prep, cur_pad_self (by omega) hle, if_pos rfl]
      exact hes
    case isFalse => cases h

/-- A turn of the inner loop of `add_file` that finds room. -/
private theorem makeRoom_found {o : Out} {fuel : Nat} (h : Holds d o st)
    (hlt : o.cur.length < d.erasesize)
    (hroom : sizeofInode + 128 < d.erasesize - o.cur.length) :
    makeRoom c d (fuel + 1) st = .ok (d.erasesize - o.cur.length - sizeofInode, st) := by
  rw [makeRoom, rbytes_eq h hlt, if_pos (by omega)]
  exact congrArg (fun n => Except.ok (n, st)) (by omega)

/-- A block without room is filled and the next one begun. -/
private theorem makeRoom_full {fuel : Nat} (hroom : ¬sizeofInode + 128 < rbytes d st) :
    makeRoom c d (fuel + 1) st =
      (pad d d.erasesize st >>= prepEraseblock c d) >>= makeRoom c d fuel := by
  rw [makeRoom, if_neg (by omega), bind_assoc]

/-- `make_room` comes to the room that the format says. -/
private theorem makeRoom_holds {o o' : Out} (h : Holds d o st) (hlt : o.cur.length < d.erasesize)
    (hroom : o.room c d.erasesize = some o') :
    Ensures (· = Fault.exit)
      (fun r => r.1 = d.erasesize - o'.cur.length - sizeofInode ∧ Kept st r.2 ∧ Holds d o' r.2)
      (makeRoom c d 2 st) := by
  have hlen := Out.length_room (Nat.le_of_lt hlt) hroom
  rw [Out.room] at hroom
  split at hroom
  case isTrue hfits =>
    cases hroom
    -- the first turn of the loop finds room in the block at hand
    rw [makeRoom_found h hlt hfits]
    exact ⟨rfl, .rfl' st, h⟩
  case isFalse hfull =>
    split at hroom
    case isFalse => cases hroom
    case isTrue hes =>
      cases hroom
      -- the second turn finds the next block
      rw [makeRoom_full (by rw [rbytes_eq h hlt]; exact hfull)]
      have hnext : Ensures (· = Fault.exit)
          (fun st₂ => Kept st st₂ ∧ Holds d ((o.pad d.erasesize d.erasesize).prep c) st₂)
          (pad d d.erasesize st >>= prepEraseblock c d) := by
        refine (pad_holds d.erasesize d.erasesize_pos (Nat.dvd_refl _) h).bind fun st₁ ⟨hkept, h₁⟩ => ?_
        obtain ⟨st₂, hprep, hkept', h₂⟩ := prep_holds (c := c) (by omega) h₁
        rw [hprep]
        exact ⟨hkept.trans hkept', h₂⟩
      refine hnext.bind fun st₂ ⟨hkept, h₂⟩ => ?_
      rw [makeRoom_found h₂ (by omega) (by omega)]
      exact ⟨rfl, hkept, h₂⟩

/-- In a block that is too small the inner loop goes on for ever. -/
private theorem makeRoom_endless (fuel : Nat) {o : Out} (h : Holds d o st)
    (hroom : ¬sizeofInode + 128 < rbytes d st)
    (hes : ¬(cleanmarker c).length + sizeofInode + 128 < d.erasesize) :
    Ensures (fun _ => True) (fun _ => False) (makeRoom c d fuel st) := by
  -- induction on the fuel: a turn leaves a state as poor as the one before
  induction fuel generalizing st o with
  | zero => trivial
  | succ fuel ih =>
    rw [makeRoom_full hroom]
    have hpad := pad_holds d.erasesize d.erasesize_pos (Nat.dvd_refl _) h
    cases hst₁ : pad d d.erasesize st with
    | error e => trivial
    | ok st₁ =>
      rw [hst₁] at hpad
      have hcur := Out.cur_pad_self d.erasesize_pos h.length_le
      by_cases hmarker : d.erasesize < (cleanmarker c).length
      · -- `prep_eraseblock` does not end
        have hofs : ¬0 < st₁.ofs := by
          rw [hpad.2.ofs_eq, hcur]
          exact Nat.lt_irrefl 0
        rw [ok_bind, prepEraseblock, if_neg hofs, if_pos hmarker]
        trivial
      · obtain ⟨st₂, hprep, -, h₂⟩ := prep_holds (c := c) (by omega) hpad.2
        have hofs : st₂.ofs = (cleanmarker c).length := by
          rw [h₂.ofs_eq, Out.prep, hcur, if_pos rfl]
        -- the next block starts behind its cleanmarker, and that is not enough either
        rw [ok_bind, hprep]
        refine ih h₂ ?_
        rw [rbytes, hofs]
        have hlen := length_cleanmarker c
        have hhead : sizeofInode = 68 := rfl
        by_cases hlt : (cleanmarker c).length < d.erasesize
        · rw [Nat.mod_eq_of_lt hlt]
          omega
        · omega

/-! ### Files -/

/-- Where a node goes, by the bytes in the block in front of it. -/
def roomAt (es pos : Nat) : Option Nat :=
  if sizeofInode + 128 < es - pos then some pos else if 208 < es then some 12 else none

/-- The bytes in the block behind a node that ends at `pos`. -/
def behind (es pos : Nat) : Nat := if pos + (4 - pos % 4) % 4 = es then 12 else pos + (4 - pos % 4) % 4

/-- How `add_file` cuts the bytes of a file from `pos` on, and the bytes left; none if it does not
    end. -/
def cutFile (es : Nat) : Nat → Nat → List ReadRes → List UInt8 →
    Option (List (List UInt8) × List UInt8)
  | 0, _, _, _ => none
  | fuel + 1, pos, script, rest =>
    match roomAt es pos with
    | none => none
    | some pos =>
      let r := readSome (min (es - pos - sizeofInode) sizeofWbuf) script rest
      if r.1 = [] then some ([], rest)
      else
        (cutFile es fuel (behind es (pos + (sizeofInode + r.1.length))) r.2.2 r.2.1).map
          fun p => (r.1 :: p.1, p.2)

/-- The inode nodes for the pieces of a file. -/
def fileNodes (c : Cfg) (s : Stat) (inode : UInt32) : UInt32 → UInt32 → List (List UInt8) →
    List RawInode
  | _, _, [] => []
  | version, offset, piece :: pieces =>
    mkFileInode c s inode (version + 1) offset piece ::
      fileNodes c s inode (version + 1) (offset + UInt32.ofNat piece.length) pieces

/-- A node and what follows it. -/
def Out.node (c : Cfg) (es : Nat) (n : Node) (o : Out) : Out :=
  ((o.put (n.bytes c)).pad es 4).prep c

/-- The nodes of a file, each where there is room. -/
def Out.addNodes (c : Cfg) (es : Nat) : List Node → Out → Option Out
  | [], o => o.room c es
  | n :: ns, o => (o.room c es).bind fun o => Out.addNodes c es ns (o.node c es n)

/-- The room depends on the position only. -/
theorem Out.length_room_eq {es : Nat} {o : Out} (hlt : o.cur.length < es) :
    (o.room c es).map (fun o => o.cur.length) = roomAt es o.cur.length := by
  rw [room, roomAt, length_cleanmarker]
  have hhead : 12 + sizeofInode + 128 = 208 := rfl
  rw [hhead]
  split
  · rfl
  · split
    · rw [Option.map_some, prep, cur_pad_self (by omega) (Nat.le_of_lt hlt), if_pos rfl,
        length_cleanmarker]
    · rfl

/-- A node leaves room, and where it ends depends on its length. -/
theorem Out.length_node {es : Nat} {o : Out} {n : Node} (hdvd : 4 ∣ es) (hmarker : 12 < es)
    (hfit : o.cur.length + (n.bytes c).length ≤ es) (hpos : 0 < o.cur.length + (n.bytes c).length) :
    (o.node c es n).cur.length < es ∧
      (o.node c es n).cur.length = behind es (o.cur.length + (n.bytes c).length) := by
  have hput : (o.put (n.bytes c)).cur.length = o.cur.length + (n.bytes c).length :=
    List.length_append
  have hle := length_fillTo_le (by decide : 0 < 4) hdvd (hput ▸ hfit)
  have hfill : (fillTo 4 (o.put (n.bytes c)).cur).length = o.cur.length + (n.bytes c).length +
      (4 - (o.cur.length + (n.bytes c).length) % 4) % 4 := by
    rw [fillTo, List.length_append, List.length_replicate, hput]
  rw [node, pad, behind, ← hfill]
  -- the padding fills the block, or ends inside it
  split
  · rw [prep, if_pos rfl, length_cleanmarker]
    exact ⟨hmarker, rfl⟩
  · have hne : fillTo 4 (o.put (n.bytes c)).cur ≠ [] := by
      rw [← List.length_pos_iff]
      omega
    rw [prep, if_neg hne]
    exact ⟨Nat.lt_of_le_of_ne hle (by assumption), rfl⟩

/-- What was read and what is left are the file. -/
theorem readSome_append (len : Nat) (script : List ReadRes) (rest : List UInt8) :
    (readSome len script rest).1 ++ (readSome len script rest).2.1 = rest := by
  cases script with
  | nil => exact List.take_append_drop len rest
  | cons r script =>
    cases r with
    | short n => exact List.take_append_drop _ rest
    | eintr => rfl
    | eagain => rfl
    | error => rfl

/-- No more is read than asked for. -/
theorem readSome_length_le (len : Nat) (script : List ReadRes) (rest : List UInt8) :
    (readSome len script rest).1.length ≤ len := by
  cases script with
  | nil => exact List.length_take_le len rest
  | cons r script =>
    cases r with
    | short n => exact (List.length_take_le _ rest).trans (Nat.min_le_right _ _)
    | eintr => exact Nat.zero_le len
    | eagain => exact Nat.zero_le len
    | error => exact Nat.zero_le len

/-- The globals behind `n` inode nodes of a file. -/
def Globals.behindNodes (g : Globals) (n : Nat) : Globals :=
  { g with lastVersion := g.lastVersion + UInt32.ofNat n }

/-- No node takes no version. -/
theorem Globals.behindNodes_zero (g : Globals) : g.behindNodes 0 = g := by
  rw [behindNodes]
  exact congrArg (fun v => { g with lastVersion := v }) (UInt32.add_zero _)

/-- A node takes the next version. -/
theorem Globals.behindNodes_succ (g : Globals) (n : Nat) :
    ({ g with lastVersion := g.lastVersion + 1 } : Globals).behindNodes n = g.behindNodes (n + 1) := by
  have hone : UInt32.ofNat (n + 1) = 1 + UInt32.ofNat n := by
    rw [UInt32.ofNat_add, UInt32.add_comm]
    rfl
  simp only [behindNodes, hone, UInt32.add_assoc]

/-- One inode node of a file. -/
private theorem addNode_holds {o : Out} (ri : RawInode) (hdvd : 4 ∣ d.erasesize)
    (hmarker : (cleanmarker c).length ≤ d.erasesize) (h : Holds d o st)
    (hfit : o.cur.length + (sizeofInode + ri.data.length) ≤ d.erasesize) :
    Ensures (· = Fault.exit)
      (fun st' => st'.globals = st.globals ∧ st'.nodes = st.nodes ++ [.inode ri] ∧
        Holds d (o.node c d.erasesize (.inode ri)) st')
      (addNode c d ri st) := by
  have hheader : o.cur.length + (ri.header c).length ≤ d.erasesize := by
    rw [ri.length_header]
    omega
  obtain ⟨st₁, hadd₁, hkept₁, h₁⟩ := addData_holds c (ri.header c) h hheader
  have hdata : (o.put (ri.header c)).cur.length + ri.data.length ≤ d.erasesize := by
    rw [Out.put, List.length_append, ri.length_header, Nat.add_assoc]
    exact hfit
  obtain ⟨st₂, hadd₂, hkept₂, h₂⟩ := addData_holds c ri.data h₁ hdata
  rw [addNode, hadd₁, ok_bind, hadd₂, ok_bind]
  -- two calls of `add_data`, one record of the image
  have hnode : (o.put (ri.header c)).put ri.data = o.put (Node.bytes c (.inode ri)) := by
    rw [Out.put, Out.put, Out.put, Node.bytes, List.append_assoc]
  rw [hnode] at h₂
  have h₂' : Holds d (o.put (Node.bytes c (.inode ri)))
      { st₂ with nodes := st₂.nodes ++ [.inode ri] } :=
    ⟨h₂.length_buf, h₂.ofs_eq, h₂.take_eq, h₂.blocks_eq⟩
  refine (pad_holds 4 (by decide) hdvd h₂').bind fun st₃ ⟨hkept₃, h₃⟩ => ?_
  obtain ⟨st₄, hprep, hkept₄, h₄⟩ := prep_holds hmarker h₃
  rw [hprep]
  have hkept := hkept₁.trans hkept₂
  refine ⟨?_, ?_, h₄⟩
  · rw [hkept₄.globals_eq, hkept₃.globals_eq]
    exact hkept.globals_eq
  · rw [hkept₄.nodes_eq, hkept₃.nodes_eq]
    exact congrArg (· ++ [Node.inode ri]) hkept.nodes_eq

/-- What `add_file` does from an output on, when the bytes are cut into these pieces. -/
def WritesFile (c : Cfg) (d : MtdDev) (s : Stat) (inode fOffset : UInt32) (o : Out) (st : St)
    (pieces : List (List UInt8)) (st' : St) : Prop :=
  st'.globals = st.globals.behindNodes pieces.length ∧
    st'.nodes = st.nodes ++
      (fileNodes c s inode st.globals.lastVersion fOffset pieces).map Node.inode ∧
    ∃ o', o.addNodes c d.erasesize
      ((fileNodes c s inode st.globals.lastVersion fOffset pieces).map Node.inode) = some o' ∧
      Holds d o' st'

/-- In a block that never has room the inner loop goes on for ever. -/
private theorem makeRoom_none {o : Out} (h : Holds d o st) (hlt : o.cur.length < d.erasesize)
    (hroom : o.room c d.erasesize = none) :
    Ensures (fun _ => True) (fun _ => False) (makeRoom c d 2 st) := by
  have hfull : ¬sizeofInode + 128 < rbytes d st := by
    rw [rbytes_eq h hlt]
    intro hfits
    rw [Out.room, if_pos hfits] at hroom
    cases hroom
  have hsmall : ¬(cleanmarker c).length + sizeofInode + 128 < d.erasesize := by
    intro hes
    rw [Out.room, if_neg (by rw [← rbytes_eq h hlt]; exact hfull), if_pos hes] at hroom
    cases hroom
  exact makeRoom_endless 2 h hfull hsmall

/-- At the end of the file only room is made. -/
private theorem writesFile_nil {s : Stat} {inode fOffset : UInt32} {o o₁ : Out} {st₁ : St}
    (hroom : o.room c d.erasesize = some o₁) (hkept : Kept st st₁) (h₁ : Holds d o₁ st₁) :
    WritesFile c d s inode fOffset o st [] st₁ := by
  refine ⟨?_, ?_, o₁, hroom, h₁⟩
  · rw [hkept.globals_eq, List.length_nil, Globals.behindNodes_zero]
  · rw [hkept.nodes_eq, fileNodes, List.map_nil, List.append_nil]

/-- The first piece, and the rest of the file behind its node. -/
private theorem WritesFile.cons {s : Stat} {inode fOffset : UInt32} {o o₁ : Out} {st₂ st' : St}
    {data : List UInt8} {pieces : List (List UInt8)} {ri : RawInode}
    (hri : mkFileInode c s inode (st.globals.lastVersion + 1) fOffset data = ri)
    (hroom : o.room c d.erasesize = some o₁)
    (hglobals : st₂.globals = { st.globals with lastVersion := st.globals.lastVersion + 1 })
    (hnodes : st₂.nodes = st.nodes ++ [.inode ri])
    (h : WritesFile c d s inode (fOffset + UInt32.ofNat data.length)
      (o₁.node c d.erasesize (.inode ri)) st₂ pieces st') :
    WritesFile c d s inode fOffset o st (data :: pieces) st' := by
  obtain ⟨hglobals', hnodes', o', ho', h'⟩ := h
  have hlist : fileNodes c s inode st.globals.lastVersion fOffset (data :: pieces) =
      ri :: fileNodes c s inode st₂.globals.lastVersion (fOffset + UInt32.ofNat data.length)
        pieces := by
    rw [fileNodes, hri, hglobals]
  refine ⟨?_, ?_, o', ?_, h'⟩
  · rw [hglobals', hglobals, List.length_cons, Globals.behindNodes_succ]
  · rw [hnodes', hnodes, hlist, List.map_cons, List.append_assoc]
    rfl
  · rw [hlist, List.map_cons, Out.addNodes, hroom]
    exact ho'

/-- The node for a piece that fits, and where it ends. -/
private theorem addNode_file {o : Out} {data : List UInt8} {ri : RawInode} (g : Globals)
    (hdvd : 4 ∣ d.erasesize) (h : Holds d o st) (hridata : ri.data = data)
    (hpos : 0 < data.length)
    (hfit : o.cur.length + (sizeofInode + data.length) ≤ d.erasesize) :
    ((o.node c d.erasesize (.inode ri)).cur.length < d.erasesize ∧
      (o.node c d.erasesize (.inode ri)).cur.length =
        behind d.erasesize (o.cur.length + (sizeofInode + data.length))) ∧
    Ensures (· = Fault.exit)
      (fun st' => st'.globals = g ∧ st'.nodes = st.nodes ++ [.inode ri] ∧
        Holds d (o.node c d.erasesize (.inode ri)) st')
      (addNode c d ri { st with globals := g }) := by
  have hmarker : 12 < d.erasesize := by
    have hhead : sizeofInode = 68 := rfl
    omega
  have hmarker' : (cleanmarker c).length ≤ d.erasesize := by
    rw [length_cleanmarker]
    exact Nat.le_of_lt hmarker
  -- the node is its header and the piece
  have hbytes : (Node.bytes c (.inode ri)).length = sizeofInode + data.length := by
    rw [Node.bytes, List.length_append, ri.length_header, hridata]
  have hends := Out.length_node (c := c) (o := o) (n := .inode ri) hdvd hmarker
    (by rw [hbytes]; exact hfit) (by rw [hbytes]; omega)
  rw [hbytes] at hends
  have h' : Holds d o { st with globals := g } :=
    ⟨h.length_buf, h.ofs_eq, h.take_eq, h.blocks_eq⟩
  exact ⟨hends, addNode_holds ri hdvd hmarker' h' (by rw [hridata]; exact hfit)⟩

/-- The outer loop of `add_file` ends, with inode nodes for the pieces of the file, or it goes on for
    ever. -/
private theorem addFileLoop_holds (s : Stat) (inode : UInt32) (hdvd : 4 ∣ d.erasesize) (fuel : Nat)
    {rest : List UInt8} {o : Out} (h : Holds d o st) (hlt : o.cur.length < d.erasesize)
    (hfuel : rest.length < fuel) (script : List ReadRes) (fOffset : UInt32) :
    (∀ pieces left, cutFile d.erasesize fuel o.cur.length script rest = some (pieces, left) →
      Ensures (· = Fault.exit) (WritesFile c d s inode fOffset o st pieces)
        (addFileLoop c d s inode fuel fOffset script rest st)) ∧
    (cutFile d.erasesize fuel o.cur.length script rest = none →
      Ensures (fun _ => True) (fun _ => False)
        (addFileLoop c d s inode fuel fOffset script rest st)) := by
  -- the turns of the loop and the cutting of the file into pieces go side by side
  induction fuel generalizing rest o st script fOffset with
  | zero => exact absurd hfuel (Nat.not_lt_zero _)
  | succ fuel ih =>
    have hroomat := Out.length_room_eq (c := c) hlt
    rw [cutFile, ← hroomat, addFileLoop]
    -- a block that never gives room keeps the inner loop turning: there is no cut either
    cases hroom : o.room c d.erasesize with
    | none =>
      simp only [Option.map_none, reduceCtorEq, false_imp_iff, implies_true, true_and, forall_const]
      exact (makeRoom_none h hlt hroom).bind fun _ hfalse => hfalse.elim
    | some o₁ =>
      have hlen := Out.length_room (Nat.le_of_lt hlt) hroom
      have hmake := makeRoom_holds h hlt hroom
      cases hm : makeRoom c d 2 st with
      | error e =>
        rw [hm] at hmake
        exact ⟨fun _ _ _ => hmake, fun _ => trivial⟩
      | ok r =>
      rw [hm] at hmake
      obtain ⟨len, st₁⟩ := r
      obtain ⟨hlen₁, hkept, h₁⟩ := hmake
      simp only at hlen₁ hkept h₁
      rw [ok_bind]
      simp only [Option.map_some, hlen₁]
      have happ := readSome_append (min (d.erasesize - o₁.cur.length - sizeofInode) sizeofWbuf)
        script rest
      have hle := readSome_length_le (min (d.erasesize - o₁.cur.length - sizeofInode) sizeofWbuf)
        script rest
      generalize readSome (min (d.erasesize - o₁.cur.length - sizeofInode) sizeofWbuf) script
        rest = r at happ hle ⊢
      obtain ⟨data, rest', script'⟩ := r
      simp only at happ hle ⊢
      by_cases hdata : data = []
      · -- the file ends here
        rw [if_pos hdata, if_pos hdata]
        refine ⟨fun pieces left hcut => ?_, fun hcut => by cases hcut⟩
        cases hcut
        exact writesFile_nil hroom hkept h₁
      rw [if_neg hdata, if_neg hdata, hkept.globals_eq]
      have hwbuf := Nat.min_le_left (d.erasesize - o₁.cur.length - sizeofInode) sizeofWbuf
      have hpos := List.length_pos_iff.mpr hdata
      -- a node takes at least one byte of the file
      have hfuel' : rest'.length < fuel := by
        have hsum := congrArg List.length happ
        rw [List.length_append] at hsum
        omega
      -- the node, and the rest of the file behind it
      generalize hri : mkFileInode c s inode (st.globals.lastVersion + 1) fOffset data = ri
      obtain ⟨⟨hlt₂, hlen₂⟩, hnode⟩ := addNode_file (c := c)
        { st.globals with lastVersion := st.globals.lastVersion + 1 } hdvd h₁
        (show ri.data = data by rw [← hri]; rfl) hpos (by omega)
      cases hn : addNode c d ri
          { st₁ with globals := { st.globals with lastVersion := st.globals.lastVersion + 1 } } with
      | error e =>
        rw [hn] at hnode
        exact ⟨fun _ _ _ => hnode, fun _ => trivial⟩
      | ok st₂ =>
        rw [hn] at hnode
        obtain ⟨hglobals, hnodes, h₂⟩ := hnode
        rw [hkept.nodes_eq] at hnodes
        rw [ok_bind, ← hlen₂]
        have hrest := ih h₂ hlt₂ hfuel' script' (fOffset + UInt32.ofNat data.length)
        refine ⟨fun pieces left hcut => ?_, fun hcut => ?_⟩
        · obtain ⟨⟨pieces', left'⟩, hcut', hp⟩ := Option.map_eq_some_iff.mp hcut
          cases hp
          exact (hrest.1 pieces' left' hcut').mono
            fun st' h' => WritesFile.cons hri hroom hglobals hnodes h'
        · exact hrest.2 (Option.map_eq_none_iff.mp hcut)

/-- What `add_file` does from an output on, when the bytes are cut into these pieces. -/
structure FileAdded (c : Cfg) (d : MtdDev) (s : Stat) (de : RawDirent) (o : Out) (st : St)
    (pieces : List (List UInt8)) (st' : St) : Prop where
  globals_eq : st'.globals = st.globals.behindDirent.behindNodes pieces.length
  nodes_eq : st'.nodes = st.nodes ++ .dirent de ::
    (fileNodes c s de.ino (st.globals.lastVersion + 1) 0 pieces).map .inode
  holds : ∃ o', (o.dirent c d.erasesize de).addNodes c d.erasesize
    ((fileNodes c s de.ino (st.globals.lastVersion + 1) 0 pieces).map .inode) = some o' ∧ Holds d o' st'

/-- `add_file` puts together a directory entry that fits and the nodes of the file, or it goes on for
    ever. -/
theorem addFile_holds {o : Out} {f : File} {s : Stat} (parent : UInt32)
    (hint : d.erasesize < 2 ^ 31) (hdvd : 4 ∣ d.erasesize) (h : Holds d o st)
    (hlt : o.cur.length < d.erasesize) (hstat : f.stat = some s) (hopens : f.opens = true)
    (hfit : DirentFits c d.erasesize o f.fname.length) :
    (∀ pieces left, cutFile d.erasesize (f.bytes.length + 1)
        (direntEnd c d.erasesize o f.fname.length) f.script f.bytes = some (pieces, left) →
      Ensures (· = Fault.exit)
        (FileAdded c d s (st.globals.nextDirent c f.fname dtReg parent) o st pieces)
        (addFile c d f parent st)) ∧
    (cutFile d.erasesize (f.bytes.length + 1) (direntEnd c d.erasesize o f.fname.length) f.script
        f.bytes = none →
      Ensures (fun _ => True) (fun _ => False) (addFile c d f parent st)) := by
  have hadd := addDirent_holds dtReg parent hint hdvd h hlt hfit
  obtain ⟨hend, hendlt⟩ := Out.length_dirent st.globals dtReg parent hdvd hfit
  rw [addFile, hstat]
  simp only [hopens, if_true]
  -- the dirent goes first, its inode number into every node of the file
  cases hr : addDirent c d f.fname dtReg parent st with
  | error e =>
    rw [hr] at hadd
    exact ⟨fun _ _ _ => hadd, fun _ => trivial⟩
  | ok r =>
    rw [hr] at hadd
    obtain ⟨inode, st₁⟩ := r
    obtain ⟨hino, hglobals, hnodes, h₁⟩ := hadd
    simp only at hino hglobals hnodes h₁
    rw [ok_bind]
    have h₁' : Holds d (o.dirent c d.erasesize (st.globals.nextDirent c f.fname dtReg parent)) st₁ :=
      h₁
    obtain ⟨hsome, hnone⟩ := addFileLoop_holds (c := c) s inode hdvd (f.bytes.length + 1) h₁'
      (hend ▸ hendlt) (Nat.lt_succ_self _) f.script 0
    rw [hend] at hsome hnone
    refine ⟨fun pieces left hcut => ?_, hnone⟩
    have hde : inode = (st.globals.nextDirent c f.fname dtReg parent).ino := hino
    have hversion : st₁.globals.lastVersion = st.globals.lastVersion + 1 :=
      congrArg Globals.lastVersion hglobals
    refine (hsome pieces left hcut).mono fun st' ⟨hglobals', hnodes', hholds⟩ => ?_
    rw [hversion, hde] at hnodes' hholds
    refine ⟨?_, ?_, hholds⟩
    · rw [hglobals', hglobals]
    · rw [hnodes', hnodes, List.append_assoc]
      rfl

end HandsomeMod.Native.Jffs2
