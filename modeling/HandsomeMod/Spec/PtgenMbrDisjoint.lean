import HandsomeMod.Native.Ptgen
import HandsomeMod.Spec.PtgenPlace

/-!
# What an MBR partition table describes

Sectors are counted in native numbers and cut to 32 bits where they are stored. The table is right
exactly when the partitions, placed over the natural numbers, have starts and lengths of 32 bits.
-/

namespace HandsomeMod.Native.Ptgen.Mbr

open ForStd

/-! ### What was asked for -/

/-- The number of kilobytes that an argument stands for -/
def Arg.kbytes (a : Arg) : Nat := a.exp.elim 0 fun exp => a.number.toNat * 1024 ^ exp

/-- The start that an option asks for, 0 if it does not -/
def PartOpt.startKb (o : PartOpt) : Nat := o.start.elim 0 Arg.kbytes

def PartOpt.sizeKb (o : PartOpt) : Nat := o.size.kbytes

/-- The options from index `i` on that get an entry, with their indices -/
def askedFrom (opts : List PartOpt) (i : Nat) : List (PartOpt × Nat) :=
  (opts.zipIdx i).filter fun x => x.1.info.size ≠ 0

/-! ### The table in the file -/

def entryPos (i : Nat) : Nat := mbrPartitionEntryOffset + 16 * i

def entryStart (m : Mem) (i : Nat) : Nat := loadLE 4 fun k => m (entryPos i + 8 + k)

def entryLength (m : Mem) (i : Nat) : Nat := loadLE 4 fun k => m (entryPos i + 12 + k)

/-- Each start is one track behind the end of the entry before it or more, and the one that was
asked for if one was. -/
def StartsBehind (c : Cfg) (m : Mem) : Nat → List (PartOpt × Nat) → Prop
  | _, [] => True
  | stop, x :: l =>
    stop + c.sectors ≤ entryStart m x.2 ∧
      (x.1.startKb ≠ 0 → entryStart m x.2 = 2 * x.1.startKb) ∧
        StartsBehind c m (entryStart m x.2 + entryLength m x.2) l

/-- The table of some options, with what was printed -/
structure GoodTable (c : Cfg) (opts : List PartOpt) (m : Mem) (printed : List (UInt64 × UInt64)) :
    Prop where
  stored : List.Forall₂ (fun x (r : UInt64 × UInt64) =>
    entryStart m x.2 = r.1.toNat ∧ entryLength m x.2 = r.2.toNat) (askedFrom opts 0) printed
  ascending : (askedFrom opts 0).Pairwise fun x y =>
    entryStart m x.2 + entryLength m x.2 ≤ entryStart m y.2
  long : ∀ x ∈ askedFrom opts 0, 2 * x.1.sizeKb ≤ entryLength m x.2
  starts : StartsBehind c m 0 (askedFrom opts 0)

/-! ### Placement over the natural numbers -/

/-- The end of a partition, with the size of a cylinder as an `int` -/
def mbrAlignCyl (c : Cfg) (s : Nat) : Nat :=
  if c.kbAlign = 0 then s + (cylSize c).toNat - s % (cylSize c).toNat else s

def mbrStart (c : Cfg) (s : Nat) (o : PartOpt) : Nat :=
  if o.startKb ≠ 0 then 2 * o.startKb else alignKb c (s + c.sectors)

def mbrNext (c : Cfg) (s : Nat) (o : PartOpt) : Nat :=
  mbrAlignCyl c (mbrStart c s o + 2 * o.sizeKb)

/-- A partition behind the cursor `s` has numbers of 32 bits, and the alignment that it needs is
positive. -/
structure Fits (c : Cfg) (s : Nat) (o : PartOpt) : Prop where
  kb : o.startKb = 0 → 0 ≤ c.kbAlign
  cyl : c.kbAlign = 0 → 0 < cylSize c
  start_lt : mbrStart c s o < 2 ^ 32
  length_lt : mbrNext c s o - mbrStart c s o < 2 ^ 32

/-- All partitions fit, one behind the other. -/
def AllFit (c : Cfg) : Nat → List (PartOpt × Nat) → Prop
  | _, [] => True
  | s, x :: l => Fits c s x.1 ∧ AllFit c (mbrNext c s x.1) l

/-- Aligning does not go back. -/
private theorem le_mbrAlignCyl {c : Cfg} (hcyl : c.kbAlign = 0 → 0 < cylSize c) (s : Nat) :
    s ≤ mbrAlignCyl c s := by
  rw [mbrAlignCyl]
  split
  · next hk =>
    have hpos := hcyl hk
    have hmod := Nat.mod_lt s (show 0 < (cylSize c).toNat by omega)
    omega
  · exact Nat.le_refl s

/-- The size of a cylinder fits an `int`. -/
private theorem cylSize_lt (c : Cfg) : cylSize c < 2 ^ 31 := by
  have h := Int.bmod_lt (x := ((c.heads * c.sectors : Nat) : Int)) (m := 2 ^ 32) (by norm_num)
  unfold cylSize
  generalize ((c.heads * c.sectors : Nat) : Int).bmod (2 ^ 32) = n at h ⊢
  norm_num at h ⊢
  omega

/-- The size of a cylinder fits an `int` below, too. -/
private theorem neg_le_cylSize (c : Cfg) : -(2 ^ 31) ≤ cylSize c := by
  have h := Int.le_bmod (x := ((c.heads * c.sectors : Nat) : Int)) (m := 2 ^ 32) (by norm_num)
  unfold cylSize
  generalize ((c.heads * c.sectors : Nat) : Int).bmod (2 ^ 32) = n at h ⊢
  norm_num at h ⊢
  omega

/-! ### Arguments -/

/-- The number of kilobytes is cut to 64 bits. -/
private theorem toNat_toKbytes (a : Arg) : (toKbytes a).toNat = a.kbytes % 2 ^ 64 := by
  rw [toKbytes, Arg.kbytes]
  cases a.exp with
  | none => rfl
  | some exp => simp [UInt64.toNat_mul, UInt64.toNat_ofNat']

/-- The size of a partition is asked for in kilobytes. -/
private theorem toNat_info_size (o : PartOpt) : o.info.size.toNat = o.sizeKb % 2 ^ 64 :=
  toNat_toKbytes o.size

/-- The start of a partition is asked for in kilobytes. -/
private theorem toNat_info_start (o : PartOpt) : o.info.start.toNat = o.startKb % 2 ^ 64 := by
  rw [PartOpt.info, PartOpt.startKb]
  cases o.start with
  | none => rfl
  | some a => exact toNat_toKbytes a

/-! ### One partition -/

/-- An integer in 64 bits. -/
private theorem toNat_ofInt_mod (v : Int) : ((UInt64.ofInt v).toNat : Int) = v % 2 ^ 64 := by
  have hnonneg := Int.emod_nonneg v (show (2 : Int) ^ 64 ≠ 0 by norm_num)
  have hlt := Int.emod_lt_of_pos v (show (0 : Int) < 2 ^ 64 by norm_num)
  rw [UInt64.ofInt, UInt64.toNat_ofNat']
  omega

/-- A difference in 64 bits. -/
private theorem toNat_sub_mod (a b : UInt64) :
    ((a - b).toNat : Int) = ((a.toNat : Int) - b.toNat) % 2 ^ 64 := by
  have ha := a.toNat_lt
  have hb := b.toNat_lt
  rw [UInt64.toNat_sub]
  omega

/-- The cursor behind a partition -/
def cursorBehind (c : Cfg) (start size : UInt64) : UInt64 :=
  if c.kbAlign = 0 then roundToCyl c (start + size * 2) else start + size * 2

/-- The three ways to get a start -/
private theorem placePart_cases {c : Cfg} {sect start sect' : UInt64} {p : PartInfo}
    (h : placePart c sect p = some (start, sect')) :
    sect' = cursorBehind c start p.size ∧
      ((p.start ≠ 0 ∧ start = p.start * 2 ∧ sect + UInt64.ofNat c.sectors ≤ start) ∨
        (p.start = 0 ∧ c.kbAlign ≠ 0 ∧ start = roundToKb c (sect + UInt64.ofNat c.sectors)) ∨
          (p.start = 0 ∧ c.kbAlign = 0 ∧ start = sect + UInt64.ofNat c.sectors)) := by
  simp only [placePart] at h
  split at h
  · next hstart =>
    split at h
    · cases h
    -- the start is given
    · next hge =>
      cases h
      exact ⟨rfl, .inl ⟨hstart, rfl, UInt64.not_lt.mp hge⟩⟩
  · next hstart =>
    rw [not_not] at hstart
    split at h
    -- the start is rounded up to the alignment
    · next hk =>
      cases h
      exact ⟨(if_neg hk).symm, .inr (.inl ⟨hstart, hk, rfl⟩)⟩
    · next hk =>
      cases h
      exact ⟨rfl, .inr (.inr ⟨hstart, not_not.mp hk, rfl⟩)⟩

/-- A track further, without wrapping around. -/
private theorem toNat_track {c : Cfg} {sect : UInt64} (h : sect.toNat < 2 ^ 33) :
    (sect + UInt64.ofNat c.sectors).toNat = sect.toNat + c.sectors := by
  have hsectors := c.sectors_lt
  rw [toNat_add_of_lt] <;> rw [toNat_sectors]
  omega

/-- The end of a partition, for a cylinder of a positive `int` -/
private theorem toNat_cursorBehind {c : Cfg} (hcyl : c.kbAlign = 0 → 0 < cylSize c)
    {start size : UInt64}
    (hstart : start.toNat < 2 ^ 32) (hsize : size.toNat < 2 ^ 31) :
    (cursorBehind c start size).toNat = mbrAlignCyl c (start.toNat + 2 * size.toNat) := by
  have hdouble : (size * 2).toNat = 2 * size.toNat := toNat_mul_two (by omega)
  have hsum : (start + size * 2).toNat = start.toNat + 2 * size.toNat := by
    rw [toNat_add_of_lt (by omega), hdouble]
  rw [cursorBehind, mbrAlignCyl, ← hsum]
  split
  · next hk =>
    obtain ⟨n, hn⟩ := Int.eq_ofNat_of_zero_le (hcyl hk).le
    have hpos := hcyl hk
    have hlt := cylSize_lt c
    rw [hn] at hpos hlt
    have hmod := Nat.mod_lt (start + size * 2).toNat (show 0 < n by omega)
    -- C's `%` truncates, which for a positive dividend is the ordinary remainder
    have hint : toLong (start + size * 2) + cylSize c -
        (toLong (start + size * 2)).tmod (cylSize c) =
        ((start + size * 2).toNat + n - (start + size * 2).toNat % n : Nat) := by
      have htmod : ((start + size * 2).toNat : Int).tmod (n : Int) =
          ((start + size * 2).toNat % n : Nat) := rfl
      rw [toLong_of_lt (by omega), hn, htmod]
      omega
    rw [roundToCyl, hint, hn, Int.toNat_natCast]
    exact toNat_ofInt (by omega)
  · rfl

/-- With a cylinder of a negative `int` the end goes back. -/
private theorem cylSize_pos_of_long {c : Cfg} (hk : c.kbAlign = 0) (hcyl : cylSize c ≠ 0)
    {start size : UInt64} (hstart : start.toNat < 2 ^ 32) (hsize : size.toNat < 2 ^ 31)
    (hlen : (cursorBehind c start size - start).toNat < 2 ^ 32)
    (hlong : 2 * size.toNat ≤ (cursorBehind c start size - start).toNat) : 0 < cylSize c := by
  by_contra hneg
  have hdouble : (size * 2).toNat = 2 * size.toNat := toNat_mul_two (by omega)
  have hsum : (start + size * 2).toNat = start.toNat + 2 * size.toNat := by
    rw [toNat_add_of_lt (by omega), hdouble]
  obtain ⟨n, hn⟩ := Int.eq_ofNat_of_zero_le (show 0 ≤ -cylSize c by omega)
  have hge := neg_le_cylSize c
  have hmod := Nat.mod_lt (start + size * 2).toNat (show 0 < n by omega)
  have htmod : (toLong (start + size * 2)).tmod (cylSize c) =
      ((start + size * 2).toNat % n : Nat) := by
    rw [toLong_of_lt (by omega), show cylSize c = -(n : Int) by omega, Int.tmod_neg]
    rfl
  have hlong' : toLong (start + size * 2) = ((start.toNat + 2 * size.toNat : Nat) : Int) := by
    rw [toLong_of_lt (by omega), hsum]
  rw [hsum] at hmod htmod
  -- a negative cylinder size moves the cursor down by at least one cylinder
  have hcursor : (cursorBehind c start size).toNat =
      ((start.toNat + 2 * size.toNat : Nat) - (n : Int) -
        ((start.toNat + 2 * size.toNat) % n : Nat)) % 2 ^ 64 := by
    rw [cursorBehind, if_pos hk, roundToCyl, toNat_ofInt_mod, htmod, hlong',
      show cylSize c = -(n : Int) by omega]
    rfl
  have hsub := toNat_sub_mod (cursorBehind c start size) start
  generalize (cursorBehind c start size - start).toNat = len at hlen hlong hsub
  generalize (cursorBehind c start size).toNat = cursor at hcursor hsub
  -- so the partition would be shorter than asked for
  generalize (start.toNat + 2 * size.toNat) % n = r at hmod hcursor
  omega

/-- With a negative alignment the start goes back. -/
private theorem kbAlign_nonneg_of_behind {c : Cfg} {sect : UInt64} (hsect : sect.toNat < 2 ^ 34)
    (hpos : 0 < sect.toNat) (hstart : (roundToKb c sect).toNat < 2 ^ 32)
    (hbehind : sect.toNat ≤ (roundToKb c sect).toNat) : 0 ≤ c.kbAlign := by
  by_contra hneg
  obtain ⟨n, hn⟩ := Int.eq_ofNat_of_zero_le (show 0 ≤ -c.kbAlign by omega)
  have hge := c.kbAlign_ge
  have hdiv := Nat.div_mul_le_self (sect.toNat - 1) n
  -- C divides towards zero, so a negative alignment rounds to a value before `sect`
  have hint : ((toLong sect - 1).tdiv c.kbAlign + 1) * c.kbAlign =
      (((sect.toNat - 1) / n * n : Nat) : Int) - n := by
    have htdiv : (toLong sect - 1).tdiv c.kbAlign = -(((sect.toNat - 1) / n : Nat) : Int) := by
      rw [toLong_of_lt (by omega), show c.kbAlign = -(n : Int) by omega, Int.tdiv_neg,
        show (sect.toNat : Int) - 1 = ((sect.toNat - 1 : Nat) : Int) by omega]
      rfl
    rw [htdiv, show c.kbAlign = -(n : Int) by omega]
    push_cast
    ring
  have hcursor := toNat_ofInt_mod (((toLong sect - 1).tdiv c.kbAlign + 1) * c.kbAlign)
  rw [hint] at hcursor
  rw [roundToKb, hint] at hstart hbehind
  omega

/-- A partition that fits is placed as over the natural numbers. -/
private theorem placePart_of_fits {c : Cfg} {sect start sect' : UInt64} {o : PartOpt}
    (h : placePart c sect o.info = some (start, sect')) (hsect : sect.toNat < 2 ^ 33)
    (hfits : Fits c sect.toNat o) :
    start.toNat = mbrStart c sect.toNat o ∧ sect'.toNat = mbrNext c sect.toNat o ∧
      sect.toNat + c.sectors ≤ start.toNat := by
  have hsectors := c.sectors_lt
  have hend := le_mbrAlignCyl hfits.cyl (mbrStart c sect.toNat o + 2 * o.sizeKb)
  have hstartlt := hfits.start_lt
  have hlenlt := hfits.length_lt
  rw [mbrNext] at hlenlt
  -- the size fits into 32 bits, so the option keeps it
  have hsize : o.info.size.toNat = o.sizeKb := by
    rw [toNat_info_size]
    omega
  obtain ⟨hsect', hcases⟩ := placePart_cases h
  have htrack := toNat_track (c := c) hsect
  have hstart : start.toNat = mbrStart c sect.toNat o ∧ sect.toNat + c.sectors ≤ start.toNat := by
    have hinfo := toNat_info_start o
    -- the start is given, rounded up to KiB, or one track behind
    rcases hcases with ⟨hne, rfl, hge⟩ | ⟨hzero, hk, rfl⟩ | ⟨hzero, hk, rfl⟩
    · -- an explicit start
      have hkb : o.startKb ≠ 0 := by
        intro hkb
        rw [hkb] at hinfo
        exact hne (UInt64.toNat_inj.mp hinfo)
      rw [mbrStart, if_pos hkb] at hstartlt ⊢
      have hdouble : (o.info.start * 2).toNat = 2 * o.info.start.toNat := toNat_mul_two (by omega)
      have hge' := UInt64.le_iff_toNat_le.mp hge
      rw [htrack] at hge'
      exact ⟨by omega, hge'⟩
    all_goals
      have hkb : o.startKb = 0 := by
        by_contra hkb
        rw [mbrStart, if_pos hkb] at hstartlt
        rw [hzero] at hinfo
        change 0 = _ at hinfo
        omega
      rw [mbrStart, if_neg (not_not_intro hkb)] at hstartlt ⊢
    · have hnonneg := hfits.kb hkb
      have hpos := c.sectors_pos
      have hround := toNat_roundToKb (show 0 < c.kbAlign by omega)
        (s := sect + UInt64.ofNat c.sectors) (by omega) (by rw [htrack]; omega)
      rw [htrack] at hround
      exact ⟨hround, by rw [hround]; exact le_alignKb c hnonneg⟩
    · rw [htrack, alignKb, if_pos hk]
      exact ⟨rfl, Nat.le_refl _⟩
  refine ⟨hstart.1, ?_, hstart.2⟩
  rw [hsect', toNat_cursorBehind hfits.cyl (by omega) (by omega), hstart.1, hsize, mbrNext]

/-- Start and length of a partition as they should be stored -/
structure GoodPart (c : Cfg) (stop : Nat) (o : PartOpt) (start length : Nat) : Prop where
  start_lt : start < 2 ^ 32
  length_lt : length < 2 ^ 32
  long : 2 * o.sizeKb ≤ length
  behind : stop + c.sectors ≤ start
  asked : o.startKb ≠ 0 → start = 2 * o.startKb

/-- A partition that is placed well fits. -/
private theorem fits_of_good {c : Cfg} {sect start sect' : UInt64} {o : PartOpt}
    (h : placePart c sect o.info = some (start, sect')) (hcyl : ¬(c.kbAlign = 0 ∧ cylSize c = 0))
    (hsect : sect.toNat < 2 ^ 33)
    (hgood : GoodPart c sect.toNat o start.toNat (sect' - start).toNat) :
    Fits c sect.toNat o := by
  obtain ⟨hstartlt, hlenlt, hlong, hbehind, hasked⟩ := hgood
  have hsectors := c.sectors_lt
  have hpos := c.sectors_pos
  have hsize : o.info.size.toNat = o.sizeKb := by
    rw [toNat_info_size]
    omega
  have hinfo := toNat_info_start o
  obtain ⟨hsect', hcases⟩ := placePart_cases h
  have htrack := toNat_track (c := c) hsect
  -- a good entry excludes the negative sizes that the options may wrap to
  have hcylpos : c.kbAlign = 0 → 0 < cylSize c := by
    intro hk
    rw [hsect'] at hlenlt hlong
    exact cylSize_pos_of_long hk (fun h0 => hcyl ⟨hk, h0⟩) hstartlt (by omega) hlenlt (by omega)
  have hkb : o.startKb = 0 → 0 ≤ c.kbAlign := by
    intro hkb
    rw [hkb] at hinfo
    rcases hcases with ⟨hne, -⟩ | ⟨-, -, hround⟩ | ⟨-, hk, -⟩
    · exact absurd (UInt64.toNat_inj.mp hinfo) hne
    · rw [hround] at hstartlt hbehind
      exact kbAlign_nonneg_of_behind (by omega) (by omega) hstartlt (by omega)
    · exact hk.ge
  -- so the 64-bit sums are those of the numbers
  have hstart : start.toNat = mbrStart c sect.toNat o := by
    rw [mbrStart]
    split
    · next hne => exact hasked hne
    · next hzero =>
      rw [not_not] at hzero
      rw [hzero] at hinfo
      have hnonneg := hkb hzero
      rcases hcases with ⟨hne, -⟩ | ⟨-, hk, hround⟩ | ⟨-, hk, hplain⟩
      · exact absurd (UInt64.toNat_inj.mp hinfo) hne
      · have hle := alignKb_le c (sect.toNat + c.sectors)
        have hlt := c.kbAlign_lt
        rw [hround, toNat_roundToKb (by omega) (by omega) (by rw [htrack]; omega), htrack]
      · rw [hplain, htrack, alignKb, if_pos hk]
  have hend := le_mbrAlignCyl hcylpos (start.toNat + 2 * o.sizeKb)
  -- and so is the cursor behind the partition
  have hnext : sect'.toNat = mbrNext c sect.toNat o := by
    rw [hsect', toNat_cursorBehind hcylpos hstartlt (by omega), hsize, mbrNext, hstart]
  refine ⟨hkb, hcylpos, by omega, ?_⟩
  rw [← hnext, ← hstart]
  rw [hstart] at hend
  rw [← mbrNext, ← hnext, ← hstart] at hend
  have hsub := toNat_sub_mod sect' start
  have hlt := sect'.toNat_lt
  omega

/-- A partition that fits is placed well. -/
private theorem good_of_fits {c : Cfg} {sect start sect' : UInt64} {o : PartOpt}
    (h : placePart c sect o.info = some (start, sect')) (hsect : sect.toNat < 2 ^ 33)
    (hfits : Fits c sect.toNat o) :
    GoodPart c sect.toNat o start.toNat (sect' - start).toNat ∧
      start.toNat + (sect' - start).toNat = mbrNext c sect.toNat o := by
  obtain ⟨hstart, hnext, hbehind⟩ := placePart_of_fits h hsect hfits
  have hend := le_mbrAlignCyl hfits.cyl (mbrStart c sect.toNat o + 2 * o.sizeKb)
  have hstartlt := hfits.start_lt
  have hlenlt := hfits.length_lt
  rw [← mbrNext] at hend
  have hsub := toNat_sub_mod sect' start
  have hlen : (sect' - start).toNat = mbrNext c sect.toNat o - mbrStart c sect.toNat o := by
    rw [hnext, hstart] at hsub
    omega
  refine ⟨⟨by omega, by omega, by omega, hbehind, fun hne => ?_⟩, by omega⟩
  rw [hstart, mbrStart, if_pos hne]

/-! ### The loop -/

/-- A partition without size is not asked for. -/
private theorem askedFrom_cons (o : PartOpt) (opts : List PartOpt) (i : Nat) :
    askedFrom (o :: opts) i =
      if o.info.size = 0 then askedFrom opts (i + 1) else (o, i) :: askedFrom opts (i + 1) := by
  by_cases h : o.info.size = 0 <;> simp [askedFrom, h]

/-- The indices of the partitions that are asked for. -/
theorem mem_askedFrom {opts : List PartOpt} {i : Nat} {x : PartOpt × Nat}
    (h : x ∈ askedFrom opts i) : i ≤ x.2 ∧ x.2 < i + opts.length := by
  have hzip := List.mem_zipIdx (List.mem_filter.mp h).1
  exact ⟨hzip.1, by omega⟩

/-- Entries of former partitions stay. -/
private theorem genPtes_of_lt {c : Cfg} {parts : List PartInfo} {i : Nat} {sect : UInt64}
    {pte : Nat → Pte} {r : (Nat → Pte) × List (UInt64 × UInt64)}
    (h : genPtes c parts i sect pte = some r) {j : Nat} (hj : j < i) : r.1 j = pte j := by
  induction parts generalizing i sect pte r with
  | nil =>
    cases h
    rfl
  | cons p parts ih =>
    rw [genPtes] at h
    split at h
    · split at h
      · exact ih h (by omega)
      · cases h
    · split at h
      · cases h
      · split at h
        · cases h
        -- entry `i` is written, `j` is below it
        · obtain ⟨r', hr', rfl⟩ := Option.map_eq_some_iff.mp h
          rw [ih hr' (by omega)]
          exact Function.update_of_ne (by omega) _ _

/-- What was printed is what is stored, and each partition is placed well behind the one before
it. -/
def Chain (c : Cfg) (start length : Nat → Nat) :
    Nat → List (PartOpt × Nat) → List (UInt64 × UInt64) → Prop
  | _, [], [] => True
  | stop, x :: l, r :: printed =>
    start x.2 = r.1.toNat ∧ length x.2 = r.2.toNat ∧
      GoodPart c stop x.1 r.1.toNat r.2.toNat ∧
        Chain c start length (r.1.toNat + r.2.toNat) l printed
  | _, _, _ => False

/-- The stored table is right exactly if all partitions fit. -/
theorem genPtes_chain_iff {c : Cfg} {opts : List PartOpt} {i : Nat} {sect : UInt64}
    {pte : Nat → Pte} {r : (Nat → Pte) × List (UInt64 × UInt64)}
    (h : genPtes c (opts.map PartOpt.info) i sect pte = some r) (hsect : sect.toNat < 2 ^ 33)
    {start length : Nat → Nat}
    (hstored : ∀ x ∈ askedFrom opts i, start x.2 = (r.1 x.2).start.toNat ∧
      length x.2 = (r.1 x.2).length.toNat) :
    Chain c start length sect.toNat (askedFrom opts i) r.2 ↔
      AllFit c sect.toNat (askedFrom opts i) := by
  -- induction on the options; the entry number and the sector move with each
  induction opts generalizing i sect pte r with
  | nil =>
    cases h
    exact Iff.rfl
  | cons o opts ih =>
    rw [List.map_cons, genPtes] at h
    rw [askedFrom_cons] at hstored ⊢
    -- an option without a size only takes its entry number
    split at h
    · next hzero =>
      rw [if_pos hzero] at hstored ⊢
      split at h
      · exact ih h hsect hstored
      · cases h
    · next hsize =>
      rw [if_neg hsize] at hstored ⊢
      split at h
      · cases h
      · next start' sect' hplace =>
        split at h
        · cases h
        · next hcyl =>
          obtain ⟨r', hr', rfl⟩ := Option.map_eq_some_iff.mp h
          -- The entry that was stored for this partition
          have hentry : r'.1 i = mbrEntry c i o.info start' (sect' - start') := by
            rw [genPtes_of_lt hr' (Nat.lt_succ_self i)]
            exact Function.update_self ..
          obtain ⟨hstart, hlength⟩ := hstored (o, i) List.mem_cons_self
          have hstart' : start i = start'.toNat % 2 ^ 32 := by
            rw [hstart, hentry, mbrEntry]
            exact UInt64.toNat_toUInt32 start'
          have hlength' : length i = (sect' - start').toNat % 2 ^ 32 := by
            rw [hlength, hentry, mbrEntry]
            exact UInt64.toNat_toUInt32 (sect' - start')
          have hrest : ∀ x ∈ askedFrom opts (i + 1), start x.2 = (r'.1 x.2).start.toNat ∧
              length x.2 = (r'.1 x.2).length.toNat := fun x hx =>
            hstored x (List.mem_cons_of_mem _ hx)
          rw [Chain, AllFit]
          have hbehind : ∀ hfits : Fits c sect.toNat o,
              sect'.toNat = start'.toNat + (sect' - start').toNat ∧
                sect'.toNat = mbrNext c sect.toNat o ∧ sect'.toNat < 2 ^ 33 := by
            intro hfits
            obtain ⟨hgood, hsum⟩ := good_of_fits hplace hsect hfits
            have hnext := (placePart_of_fits hplace hsect hfits).2.1
            have hlt := hgood.start_lt
            have hlt' := hgood.length_lt
            exact ⟨by omega, hnext, by omega⟩
          constructor
          · rintro ⟨-, -, hgood, hchain⟩
            have hfits := fits_of_good hplace hcyl hsect hgood
            obtain ⟨hsum, hnext, hlt⟩ := hbehind hfits
            rw [← hsum] at hchain
            rw [← hnext]
            exact ⟨hfits, (ih hr' hlt hrest).mp hchain⟩
          · rintro ⟨hfits, hall⟩
            obtain ⟨hsum, hnext, hlt⟩ := hbehind hfits
            have hgood := (good_of_fits hplace hsect hfits).1
            have hslt := hgood.start_lt
            have hllt := hgood.length_lt
            rw [← hnext] at hall
            rw [← hsum]
            refine ⟨?_, ?_, hgood, (ih hr' hlt hrest).mpr hall⟩
            · rw [hstart']
              exact Nat.mod_eq_of_lt hslt
            · rw [hlength']
              exact Nat.mod_eq_of_lt hllt

/-! ### The table -/

/-- A field of an entry has 32 bits. -/
theorem loadLE_lt (m : Mem) : loadLE 4 m < 2 ^ 32 := loadBE_lt 4 _

/-- Behind each entry the starts are not before its end. -/
theorem StartsBehind.ascending {c : Cfg} {m : Mem} {stop : Nat} {l : List (PartOpt × Nat)}
    (h : StartsBehind c m stop l) : (∀ x ∈ l, stop ≤ entryStart m x.2) ∧
      l.Pairwise fun x y => entryStart m x.2 + entryLength m x.2 ≤ entryStart m y.2 := by
  induction l generalizing stop with
  | nil => exact ⟨List.forall_mem_nil _, List.Pairwise.nil⟩
  | cons x l ih =>
    obtain ⟨hbehind, -, hrest⟩ := h
    obtain ⟨hall, hpair⟩ := ih hrest
    refine ⟨fun y hy => ?_, List.Pairwise.cons hall hpair⟩
    rcases List.mem_cons.mp hy with rfl | hy
    · omega
    · have hy' := hall y hy
      omega

/-- A chain of entries: what is printed, what is long enough and what follows what. -/
private theorem chain_iff {c : Cfg} {m : Mem} {stop : Nat} {l : List (PartOpt × Nat)}
    {printed : List (UInt64 × UInt64)} :
    Chain c (entryStart m) (entryLength m) stop l printed ↔
      List.Forall₂ (fun x (r : UInt64 × UInt64) =>
        entryStart m x.2 = r.1.toNat ∧ entryLength m x.2 = r.2.toNat) l printed ∧
        (∀ x ∈ l, 2 * x.1.sizeKb ≤ entryLength m x.2) ∧ StartsBehind c m stop l := by
  -- the printed pairs and the stored entries are compared one by one
  induction l generalizing stop printed with
  | nil =>
    cases printed with
    | nil => exact iff_of_true trivial ⟨List.Forall₂.nil, List.forall_mem_nil _, trivial⟩
    | cons r printed => exact iff_of_false id fun h => by cases h.1
  | cons x l ih =>
    cases printed with
    | nil => exact iff_of_false id fun h => by cases h.1
    | cons r printed =>
      have hslt := loadLE_lt fun k => m (entryPos x.2 + 8 + k)
      have hllt := loadLE_lt fun k => m (entryPos x.2 + 12 + k)
      rw [Chain, List.forall₂_cons, List.forall_mem_cons, StartsBehind, ih]
      constructor
      · rintro ⟨hstart, hlength, hgood, hstored, hlong, hrest⟩
        rw [← hstart, ← hlength] at hgood hrest
        exact ⟨⟨⟨hstart, hlength⟩, hstored⟩, ⟨hgood.long, hlong⟩, hgood.behind, hgood.asked, hrest⟩
      · rintro ⟨⟨⟨hstart, hlength⟩, hstored⟩, ⟨hlong, hlongs⟩, hbehind, hasked, hrest⟩
        refine ⟨hstart, hlength, ?_, hstored, hlongs, ?_⟩
        · rw [← hstart, ← hlength]
          exact ⟨hslt, hllt, hlong, hbehind, hasked⟩
        · rw [← hstart, ← hlength]
          exact hrest

/-- A good table is a chain of its entries. -/
theorem goodTable_iff_chain {c : Cfg} {opts : List PartOpt} {m : Mem}
    {printed : List (UInt64 × UInt64)} : GoodTable c opts m printed ↔
      Chain c (entryStart m) (entryLength m) 0 (askedFrom opts 0) printed := by
  rw [chain_iff]
  constructor
  · rintro ⟨hstored, -, hlong, hstarts⟩
    exact ⟨hstored, hlong, hstarts⟩
  · rintro ⟨hstored, hlong, hstarts⟩
    exact ⟨hstored, hstarts.ascending.2, hlong, hstarts⟩

/-! ### The file -/

/-- A CHS address has three bytes. -/
theorem length_toChs (c : Cfg) (sect : UInt64) : (toChs c sect).length = 3 := rfl

/-- The addresses of all entries have three bytes. -/
private theorem genPtes_length {c : Cfg} {parts : List PartInfo} {i : Nat} {sect : UInt64}
    {pte : Nat → Pte} {r : (Nat → Pte) × List (UInt64 × UInt64)}
    (h : genPtes c parts i sect pte = some r) (hpte : ∀ j, (pte j).bytes.length = 16) (j : Nat) :
    (r.1 j).bytes.length = 16 := by
  -- each option stores one entry of 16 bytes, or ends the run
  induction parts generalizing i sect pte r with
  | nil =>
    cases h
    exact hpte j
  | cons p parts ih =>
    rw [genPtes] at h
    split at h
    · split at h
      · exact ih h hpte
      · cases h
    · split at h
      · cases h
      · next start sect' _ =>
        split at h
        · cases h
        · obtain ⟨r', hr', rfl⟩ := Option.map_eq_some_iff.mp h
          change (r'.1 j).bytes.length = 16
          refine ih hr' fun k => ?_
          by_cases hk : k = i
          · rw [hk, Function.update_self]
            simp [Pte.bytes, mbrEntry, length_toChs, length_leBytes]
          · rw [Function.update_of_ne hk]
            exact hpte k

/-- One of many pieces of the same length -/
private theorem take_drop_flatMap {f : Nat → List UInt8} {n k i : Nat} (hf : ∀ i, (f i).length = n)
    (hi : i < k) : (((List.range k).flatMap f).drop (n * i)).take n = f i := by
  obtain ⟨r, rfl⟩ := Nat.exists_eq_add_of_lt hi
  have hlen : ((List.range i).flatMap f).length = n * i := by
    rw [List.length_flatMap]
    simp [hf, Nat.mul_comm]
  rw [Nat.add_assoc, List.range_add, List.flatMap_append, List.drop_left' hlen,
    List.range_succ_eq_map, List.map_cons, List.flatMap_cons, Nat.add_zero]
  exact List.take_left' (hf i)

/-- The entries in the file -/
theorem genPtable_entries {c : Cfg} {signature : UInt32} {parts : List PartInfo} {m : Mem}
    {printed : List (UInt64 × UInt64)} (h : genPtable c signature parts = some (m, printed)) :
    ∃ pte, genPtes c parts 0 0 (fun _ => Pte.zero) = some (pte, printed) ∧
      ∀ i < mbrEntryMax, entryStart m i = (pte i).start.toNat ∧
        entryLength m i = (pte i).length.toNat := by
  rw [genPtable] at h
  split at h
  · cases h
  · next pte printed' hptes =>
    cases h
    refine ⟨pte, hptes, fun i hi => ?_⟩
    have hlen : ∀ j, (pte j).bytes.length = 16 := genPtes_length hptes fun _ => rfl
    -- The bytes of the entry, before the signature of the table
    have hentry : bytesAt (writeBytes (writeBytes (writeBytes (fun _ => 0) mbrDiskSignatureOffset
        (bytesAt (c.endian.store 4 signature.toNat) 0 4)) mbrPartitionEntryOffset
        ((List.range mbrEntryMax).flatMap fun i => (pte i).bytes)) mbrBootSignatureOffset
        [0x55, 0xaa]) (entryPos i) 16 = (pte i).bytes := by
      have hall : ((List.range mbrEntryMax).flatMap fun i => (pte i).bytes).length = 64 := by
        rw [List.length_flatMap]
        simp [hlen, mbrEntryMax]
      rw [mbrEntryMax] at hi
      rw [bytesAt_writeBytes_before _ _
        (by rw [entryPos, mbrPartitionEntryOffset, mbrBootSignatureOffset]; omega), entryPos,
        bytesAt_sub (bytesAt_writeBytes_eq _ hall) (by omega)]
      exact take_drop_flatMap hlen hi
    -- the start and the length are behind the flags, the two CHS addresses and the type
    have hhead : ([(pte i).active] ++ (pte i).chsStart ++ [(pte i).type] ++
        (pte i).chsEnd).length = 8 := by
      have h16 := hlen i
      rw [Pte.bytes, List.length_append, List.length_append, length_leBytes, length_leBytes] at h16
      omega
    have hstart := bytesAt_sub hentry (show 8 + 4 ≤ 16 by decide)
    have hlength := bytesAt_sub hentry (show 12 + 4 ≤ 16 by decide)
    rw [Pte.bytes, List.append_assoc, List.drop_left' hhead,
      List.take_left' (length_leBytes 4 _)] at hstart
    rw [Pte.bytes, List.drop_left' (by rw [List.length_append, hhead, length_leBytes]),
      List.take_of_length_le (by rw [length_leBytes])] at hlength
    exact ⟨loadLE_of_bytesAt hstart (pte i).start.toNat_lt,
      loadLE_of_bytesAt hlength (pte i).length.toNat_lt⟩

/-- **A table that is written is right exactly when its partitions, placed over the natural numbers,
have starts and lengths of 32 bits and need no alignment that is not positive.** -/
theorem genPtable_good_iff {c : Cfg} {signature : UInt32} {opts : List PartOpt} {m : Mem}
    {printed : List (UInt64 × UInt64)} (hlen : opts.length ≤ mbrEntryMax)
    (h : genPtable c signature (opts.map PartOpt.info) = some (m, printed)) :
    GoodTable c opts m printed ↔ AllFit c 0 (askedFrom opts 0) := by
  obtain ⟨pte, hptes, hstored⟩ := genPtable_entries h
  rw [goodTable_iff_chain]
  refine genPtes_chain_iff hptes (by decide) fun x hx => hstored x.2 ?_
  have hidx := (mem_askedFrom hx).2
  omega

private theorem mbrHeads_pos : 0 < 16 := by decide

private theorem mbrSectors_pos : 0 < 63 := by decide

private theorem mbrHeads_lt : 16 < 2 ^ 31 := by decide

private theorem mbrSectors_lt : 63 < 2 ^ 31 := by decide

private theorem mbrKbAlign_ge : -(2 ^ 31) ≤ (2048 : Int) := by decide

private theorem mbrKbAlign_lt : (2048 : Int) < 2 ^ 31 := by decide

/-- 16 heads and 63 sectors, aligned to 1 MiB -/
def mbrDisk : Cfg where
  endian := .little
  heads := 16
  sectors := 63
  kbAlign := 2048
  active := 1
  ignoreNullSizedPartition := false
  heads_pos := mbrHeads_pos
  sectors_pos := mbrSectors_pos
  heads_lt := mbrHeads_lt
  sectors_lt := mbrSectors_lt
  kbAlign_ge := mbrKbAlign_ge
  kbAlign_lt := mbrKbAlign_lt

/-- `-p <number><suffix>` -/
def sizeOpt (number : UInt64) (suffix : List UInt8) : PartOpt where
  size := ⟨number, suffix⟩
  start := none
  type := 0x83

/-- A boot partition and a root file system -/
theorem genPtable_good_usual : ∃ m printed,
    genPtable mbrDisk 0x5452574F ([sizeOpt 16 [0x6d], sizeOpt 1 [0x67]].map PartOpt.info) =
      some (m, printed) ∧ GoodTable mbrDisk [sizeOpt 16 [0x6d], sizeOpt 1 [0x67]] m printed := by
  have hsome : (genPtable mbrDisk 0x5452574F
      ([sizeOpt 16 [0x6d], sizeOpt 1 [0x67]].map PartOpt.info)).isSome := by decide
  obtain ⟨r, hr⟩ := Option.isSome_iff_exists.mp hsome
  refine ⟨r.1, r.2, hr, (genPtable_good_iff (by decide) hr).mpr ⟨?_, ?_, trivial⟩⟩
  · exact ⟨fun _ => by decide, nofun, by decide, by decide⟩
  · exact ⟨fun _ => by decide, nofun, by decide, by decide⟩

/-- The length of a partition of 2 TiB is stored as zero. -/
theorem genPtable_twoTib_cut : ∃ m printed,
    genPtable mbrDisk 0x5452574F ([sizeOpt 2048 [0x67]].map PartOpt.info) = some (m, printed) ∧
      ¬GoodTable mbrDisk [sizeOpt 2048 [0x67]] m printed := by
  have hsome : (genPtable mbrDisk 0x5452574F
      ([sizeOpt 2048 [0x67]].map PartOpt.info)).isSome := by decide
  obtain ⟨r, hr⟩ := Option.isSome_iff_exists.mp hsome
  refine ⟨r.1, r.2, hr, fun hgood => ?_⟩
  have hlong := hgood.long (sizeOpt 2048 [0x67], 0) (by
    have hasked : askedFrom [sizeOpt 2048 [0x67]] 0 = [(sizeOpt 2048 [0x67], 0)] := rfl
    rw [hasked]
    exact List.mem_cons_self)
  have hsize : (sizeOpt 2048 [0x67]).sizeKb = 2147483648 := by decide
  -- two tebibytes are 2^32 sectors, which the field does not hold
  have hlt : entryLength r.1 0 < 2 ^ 32 := loadLE_lt _
  rw [hsize] at hlong
  change 2 * 2147483648 ≤ entryLength r.1 0 at hlong
  omega

end HandsomeMod.Native.Ptgen.Mbr
