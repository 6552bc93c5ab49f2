import HandsomeMod.ForStd.Except
import HandsomeMod.Spec.NvramRoundTrip

/-!
# Opening NVRAM inside of the mapping

The search for the magic and the scan of the variables have no end of their own: the search stays
inside of a partition that has `NVRAM_MIN_SPACE`, or if it finds the magic, and the scan stays inside
if a string without `=` stops it. `nvram_open` does not leave the bytes in front of `stop` exactly
then; `stop` is the end of the partition, or of its last page.
-/

namespace HandsomeMod.Native.Nvram

open ForStd

variable {d : Device} {stop : Nat} {image : Mem} {rdonly : Bool}

/-! ### The whole mapping -/

/-- The search in all of the mapping is that of the program. -/
private theorem findMagicIn_mapLen (d : Device) (image : Mem) (limit fuel i : Nat) :
    findMagicIn image d.mapLen limit fuel i = findMagic d image limit fuel i := by
  induction fuel generalizing i with
  | zero => rfl
  | succ fuel ih => rw [findMagicIn, findMagic, ih]

/-- With the last page all bytes of the mapping are inside. -/
theorem nvramOpenIn_mapLen (hpos : d.partSize ≠ 0) (image : Mem) (rdonly : Bool) :
    nvramOpenIn d d.mapLen image rdonly = nvramOpen d image rdonly := by
  rw [nvramOpenIn, if_neg hpos, findMagicIn_mapLen]
  rfl

/-! ### The scan -/

/-- One of the strings up to a NUL has no `=`. -/
def ScanEnds (bytes : List UInt8) : Prop := ∃ s ∈ (bytes.splitOn 0).dropLast, eqSign ∉ s

/-- A scan without NUL does not end. -/
private theorem not_scanEnds {w : List UInt8} (hw : 0 ∉ w) : ¬ScanEnds w := by
  intro hends
  obtain ⟨s, hs, -⟩ := hends
  rw [List.splitOn_eq_singleton hw] at hs
  cases hs

/-- A scan passes a string with an equals sign. -/
private theorem scanEnds_append {w : List UInt8} (hw : 0 ∉ w) (rest : List UInt8) :
    ScanEnds (w ++ 0 :: rest) ↔ eqSign ∉ w ∨ ScanEnds rest := by
  unfold ScanEnds
  rw [List.splitOn_append_cons_self_of_not_mem hw,
    List.dropLast_cons_of_ne_nil (List.splitOn_ne_nil 0 rest)]
  simp

/-- The last string has no end. -/
private theorem parse_unended (fuel : Nat) {w : List UInt8} (hw : 0 ∉ w) :
    parse fuel w = .error .outside := by
  cases fuel with
  | zero => rfl
  | succ fuel =>
    cases hlist : w with
    | nil => rfl
    | cons c l =>
      have hc : c ≠ 0 := fun heq => hw (by rw [hlist, heq]; exact List.mem_cons_self ..)
      rw [parse]
      simp only [hc, ↓reduceIte]
      cases hdrop : (c :: l).drop (strlen (nameOf (c :: l))) with
      | nil => rfl
      | cons eq value =>
        -- with no zero in the text every string runs to its end
        have hsub : ∀ b ∈ eq :: value, b ≠ 0 := by
          intro b hb heq
          rw [← hdrop, ← hlist] at hb
          exact hw (heq ▸ List.mem_of_mem_drop hb)
        have hall : (cstr value).1 = value := by
          apply List.takeWhile_eq_self_iff.mpr
          intro b hb
          exact bne_iff_ne.mpr (hsub b (List.mem_cons_of_mem _ hb))
        have hlen : strlen (cstr value) = value.length := congrArg List.length hall
        simp [hsub eq (List.mem_cons_self ..), hlen]

/-- A string without `=` ends the scan. -/
private theorem parse_ended (fuel : Nat) {w : List UInt8} (hw : 0 ∉ w) (hname : eqSign ∉ w)
    (rest : List UInt8) : parse (fuel + 1) (w ++ 0 :: rest) = .ok [] := by
  cases hlist : w with
  | nil => rfl
  | cons c l =>
    have hc : c ≠ 0 := fun heq => hw (by rw [hlist, heq]; exact List.mem_cons_self ..)
    -- the name is the whole text, so its end is the zero and no `=`
    have hall : (nameOf (w ++ 0 :: rest)).1 = w := by
      show (w ++ 0 :: rest).takeWhile _ = w
      rw [List.takeWhile_append_of_pos, List.takeWhile_cons_of_neg (by decide), List.append_nil]
      intro b hb
      have hb0 : b ≠ 0 := fun heq => hw (heq ▸ hb)
      have hbe : b ≠ eqSign := fun heq => hname (heq ▸ hb)
      simp [hb0, hbe]
    have hdrop : (w ++ 0 :: rest).drop (strlen (nameOf (w ++ 0 :: rest))) = 0 :: rest := by
      have hlen : strlen (nameOf (w ++ 0 :: rest)) = w.length := congrArg List.length hall
      rw [hlen, List.drop_left]
    rw [hlist, List.cons_append] at hdrop
    rw [List.cons_append, parse]
    simp only [hc, ↓reduceIte, hdrop]

/-- The scan stays inside of the bytes exactly if one of their strings has no `=`. -/
private theorem parse_ok_iff {fuel : Nat} {bytes : List UInt8} (hfuel : bytes.length ≤ fuel) :
    (∃ ts, parse fuel bytes = .ok ts) ↔ ScanEnds bytes := by
  -- one string of the data each turn, up to one without `=`
  induction fuel generalizing bytes with
  | zero =>
    obtain rfl := List.length_eq_zero_iff.mp (Nat.le_zero.mp hfuel)
    exact iff_of_false (not_exists_ok _) (not_scanEnds List.not_mem_nil)
  | succ fuel ih =>
    by_cases hzero : 0 ∈ bytes
    · obtain ⟨w, rest, rfl, hw⟩ := List.eq_append_cons_of_mem hzero
      rw [scanEnds_append hw]
      by_cases hname : eqSign ∈ w
      · -- a variable: its name ends at the first `=`
        obtain ⟨name, value, rfl, hfirst⟩ := List.eq_append_cons_of_mem hname
        have hname0 : 0 ∉ name := fun h0 => hw (List.mem_append_left _ h0)
        have hvalue0 : 0 ∉ value := fun h0 =>
          hw (List.mem_append_right _ (List.mem_cons_of_mem _ h0))
        have hbytes : (name ++ eqSign :: value) ++ 0 :: rest =
            tupleBytes (⟨name, hname0⟩, ⟨value, hvalue0⟩) ++ rest := by
          simp [tupleBytes]
        have hrest : rest.length ≤ fuel := by
          simp only [List.length_append, List.length_cons] at hfuel
          omega
        rw [hbytes, parse_tupleBytes fuel hfirst, or_iff_right (not_not.mpr hname), ← ih hrest]
        cases parse fuel rest with
        | error e => exact iff_of_false (not_exists_ok e) (not_exists_ok e)
        | ok ts => exact iff_of_true ⟨_, rfl⟩ ⟨ts, rfl⟩
      · exact iff_of_true ⟨[], parse_ended fuel hw hname rest⟩ (.inl hname)
    · rw [parse_unended _ hzero]
      exact iff_of_false (not_exists_ok _) (not_scanEnds hzero)

/-- The strings are read inside exactly if the scan ends there. -/
theorem nvramRehashIn_ok_iff (stop : Nat) (h : Handle d) : (∃ h', nvramRehashIn stop h = .ok h') ↔
    ScanEnds (dataIn h.image stop h.offset) := by
  rw [← parse_ok_iff (Nat.le_refl _), nvramRehashIn]
  cases parse (dataIn h.image stop h.offset).length (dataIn h.image stop h.offset) with
  | error e =>
    exact iff_of_false (not_exists_ok e) (not_exists_ok e)
  | ok ts => exact iff_of_true ⟨_, rfl⟩ ⟨ts, rfl⟩

/-! ### The search -/

/-- The first magic of the image is at this word. -/
def FirstMagic (image : Mem) (i : Nat) : Prop :=
  word image (4 * i) = nvramMagic ∧ ∀ j < i, word image (4 * j) ≠ nvramMagic

/-- There is one first magic. -/
theorem FirstMagic.unique {i j : Nat} (hi : FirstMagic image i) (hj : FirstMagic image j) :
    i = j := by
  obtain hlt | heq | hgt := Nat.lt_trichotomy i j
  · exact absurd hi.1 (hj.2 i hlt)
  · exact heq
  · exact absurd hj.1 (hi.2 j hgt)

/-- The search from a word on, with no magic in front of it. -/
inductive Search (image : Mem) (stop limit : Nat) : Except Fault (Option Nat) → Prop where
  | found (i : Nat) (hle : i ≤ limit) (hin : 4 * i + 4 ≤ stop) (hfirst : FirstMagic image i) :
    Search image stop limit (.ok (some (4 * i)))
  | absent (hin : 4 * limit + 4 ≤ stop) (hnone : ∀ j ≤ limit, word image (4 * j) ≠ nvramMagic) :
    Search image stop limit (.ok none)
  | outside (i : Nat) (hle : i ≤ limit) (hout : stop < 4 * i + 4)
    (hnone : ∀ j < i, word image (4 * j) ≠ nvramMagic) :
    Search image stop limit (.error .outside)

/-- What the search for the magic finds. -/
theorem findMagicIn_search (image : Mem) (stop limit fuel i : Nat) (hfuel : stop / 4 + 1 ≤ fuel + i)
    (hi : i ≤ limit + 1) (hstop : 4 * i ≤ stop)
    (hnone : ∀ j < i, word image (4 * j) ≠ nvramMagic) :
    Search image stop limit (findMagicIn image stop limit fuel i) := by
  induction fuel generalizing i with
  | zero => omega
  | succ fuel ih =>
    rw [findMagicIn]
    -- the loop ends at the limit, at the end of the map or at the magic
    by_cases hlimit : i > limit
    · rw [if_pos hlimit]
      exact .absent (by omega) fun j hj => hnone j (by omega)
    rw [if_neg hlimit]
    by_cases hout : 4 * i + 4 > stop
    · rw [if_pos hout]
      exact .outside i (by omega) (by omega) hnone
    rw [if_neg hout]
    by_cases hmagic : word image (4 * i) = nvramMagic
    · rw [if_pos hmagic]
      exact .found i (by omega) (by omega) ⟨hmagic, hnone⟩
    · rw [if_neg hmagic]
      refine ih (i + 1) (by omega) (by omega) (by omega) fun j hj => ?_
      obtain hlt | rfl := Nat.lt_succ_iff_lt_or_eq.mp hj
      · exact hnone j hlt
      · exact hmagic

/-- The search tries a word: it is in front of `stop` and, in a partition that has it,
    `NVRAM_MIN_SPACE` from the end. -/
def Tried (d : Device) (stop i : Nat) : Prop :=
  4 * i + 4 ≤ stop ∧ (nvramMinSpace ≤ d.partSize → 4 * i + nvramMinSpace ≤ d.partSize)

/-- The image and the partition that `nvram_open` can read. -/
def Readable (d : Device) (stop : Nat) (image : Mem) (rdonly : Bool) : Prop :=
  (nvramMinSpace ≤ d.partSize ∨ ∃ i, 4 * i + 4 ≤ stop ∧ word image (4 * i) = nvramMagic) ∧
    ∀ i, Tried d stop i → FirstMagic image i →
      (rdonly ∨ 4 * i + 8 ≤ stop) ∧
        (rdonly ∨ (readHeader image (4 * i)).len.toNat < room d (4 * i) →
          ScanEnds (dataIn image stop (4 * i)))

/-- The places that are tried, where the partition is not too small. -/
theorem le_magicLimit_iff (hmin : nvramMinSpace ≤ d.partSize) (i : Nat) :
    i ≤ magicLimit d ↔ 4 * i + nvramMinSpace ≤ d.partSize := by
  rw [magicLimit, if_pos hmin]
  omega

/-- In a smaller partition the bound of the search is behind all that can be mapped. -/
theorem lt_magicLimit (hptr : 4 ≤ d.ptrSize) (hmin : ¬nvramMinSpace ≤ d.partSize)
    (hstop : stop ≤ 2 ^ 31) : stop < 4 * magicLimit d := by
  have hpow : 2 ^ 32 ≤ 2 ^ (8 * d.ptrSize) := Nat.pow_le_pow_right (by decide) (by omega)
  rw [magicLimit, if_neg hmin]
  rw [nvramMinSpace] at *
  omega

/-- A place that has been tried is below the limit. -/
theorem le_magicLimit_of_tried (hptr : 4 ≤ d.ptrSize) (hstop : stop ≤ 2 ^ 31) {i : Nat}
    (hi : Tried d stop i) : i ≤ magicLimit d := by
  by_cases hmin : nvramMinSpace ≤ d.partSize
  · exact (le_magicLimit_iff hmin i).mpr (hi.2 hmin)
  · have hlt := lt_magicLimit hptr hmin hstop
    have hin := hi.1
    omega

/-- A place below the limit is tried. -/
theorem tried_of_le {i : Nat} (hle : i ≤ magicLimit d) (hin : 4 * i + 4 ≤ stop) :
    Tried d stop i := ⟨hin, fun hmin => (le_magicLimit_iff hmin i).mp hle⟩

/-- `nvram_open` returns without reading a byte from `stop` on exactly if there is nothing to map or
    the image is readable. -/
theorem nvramOpenIn_ok_iff (hptr : 4 ≤ d.ptrSize) (hle : d.partSize ≤ stop)
    (hstop : stop ≤ 2 ^ 31) (image : Mem) (rdonly : Bool) :
    (∃ r, nvramOpenIn d stop image rdonly = .ok r) ↔
      d.partSize = 0 ∨ Readable d stop image rdonly := by
  rw [nvramOpenIn]
  by_cases hpos : d.partSize = 0
  · rw [if_pos hpos]
    exact iff_of_true ⟨_, rfl⟩ (.inl hpos)
  rw [if_neg hpos, or_iff_right hpos]
  have hsearch := findMagicIn_search image stop (magicLimit d) (stop / 4 + 1) 0 (Nat.le_refl _)
    (Nat.zero_le _) (Nat.zero_le _)
    (fun j hj => absurd hj (Nat.not_lt_zero j))
  generalize findMagicIn image stop (magicLimit d) (stop / 4 + 1) 0 = found at hsearch
  -- the search runs out of the image, gives up, or finds the first magic
  cases hsearch with
  | outside i hi hout hnone =>
    -- only in a small partition, and there is no magic
    refine iff_of_false (not_exists_ok _) fun hread => ?_
    have hsmall : ¬nvramMinSpace ≤ d.partSize := by
      intro hmin
      have := (le_magicLimit_iff hmin i).mp hi
      rw [nvramMinSpace] at *
      omega
    obtain ⟨j, hj, hmagic⟩ := hread.1.resolve_left hsmall
    exact hnone j (by omega) hmagic
  | absent hin hnone =>
    refine iff_of_true ⟨_, rfl⟩ ⟨.inl ?_, fun i hi hfirst => ?_⟩
    · by_contra hmin
      have := lt_magicLimit hptr hmin hstop
      omega
    · exact absurd hfirst.1 (hnone i (le_magicLimit_of_tried hptr hstop hi))
  | found i hi hin hfirst =>
    -- there is only one first magic, so the condition is the one at `i`
    have hread : Readable d stop image rdonly ↔ (rdonly ∨ 4 * i + 8 ≤ stop) ∧
        (rdonly ∨ (readHeader image (4 * i)).len.toNat < room d (4 * i) →
          ScanEnds (dataIn image stop (4 * i))) := by
      constructor
      · intro hread
        exact hread.2 i (tried_of_le hi hin) hfirst
      · intro hat
        refine ⟨.inr ⟨i, hin, hfirst.1⟩, fun j _ hj => ?_⟩
        rw [hj.unique hfirst]
        exact hat
    rw [hread]
    simp only [bind, Except.bind]
    by_cases hheader : rdonly ∨ 4 * i + 8 ≤ stop
    · rw [if_neg (by cases rdonly <;> simp at hheader ⊢; omega), and_iff_right hheader]
      by_cases haccept : rdonly ∨ (readHeader image (4 * i)).len.toNat < room d (4 * i)
      · rw [if_pos haccept, imp_iff_right haccept]
        have hscan := nvramRehashIn_ok_iff stop
          ({ image := image, offset := 4 * i, table := .empty } : Handle d)
        rw [← hscan]
        cases nvramRehashIn stop ({ image := image, offset := 4 * i, table := .empty } : Handle d) with
        | error e =>
          exact iff_of_false (not_exists_ok e) (not_exists_ok e)
        | ok h => exact iff_of_true ⟨_, rfl⟩ ⟨h, rfl⟩
      · rw [if_neg haccept]
        exact iff_of_true ⟨_, rfl⟩ fun h => absurd h haccept
    · rw [if_pos (by cases rdonly <;> simp at hheader ⊢; omega)]
      exact iff_of_false (not_exists_ok _) fun h => hheader h.1

/-- A scan that leaves the mapping makes `nvram_open` leave it. -/
theorem nvramOpenIn_of_unended {offset : Nat} (hpos : d.partSize ≠ 0)
    (hfind : findMagicIn image stop (magicLimit d) (stop / 4 + 1) 0 = .ok (some offset))
    (hdata : 0 ∉ dataIn image stop offset) : nvramOpenIn d stop image true = .error .outside := by
  have hre : nvramRehashIn stop ({ image := image, offset := offset, table := .empty } : Handle d) =
      .error .outside := by
    rw [nvramRehashIn, parse_unended _ hdata]
    rfl
  rw [nvramOpenIn, if_neg hpos, hfind]
  simp only [bind, Except.bind]
  rw [if_neg (by simp), if_pos (.inl trivial), hre]

/-- The bytes behind the header of `blankImage` begin with the empty string. -/
private theorem scanEnds_blankImage : ScanEnds (dataIn blankImage 0x8000 0) := by
  have hfirst : bytesAt blankImage 20 1 = [] ++ [0] := by decide
  have hdata : dataIn blankImage 0x8000 0 = bytesAt blankImage 20 (1 + (0x8000 - 21)) := by
    rw [dataIn, sizeofHeader]
  rw [hdata, bytesAt_add, hfirst, List.append_assoc, List.singleton_append,
    scanEnds_append List.not_mem_nil]
  exact .inl List.not_mem_nil

/-- The least partition with only a magic is readable. -/
theorem nvramOpenIn_blankImage : ∃ r, nvramOpenIn lowDevice 0x8000 blankImage false = .ok r := by
  refine (nvramOpenIn_ok_iff (by decide) (by decide) (by decide) blankImage false).mpr
    (.inr ⟨.inl (by decide), fun i _ hi => ?_⟩)
  have hfirst : FirstMagic blankImage 0 :=
    ⟨by decide, fun j hj => absurd hj (Nat.not_lt_zero j)⟩
  obtain rfl := hi.unique hfirst
  exact ⟨.inr (by decide), fun _ => scanEnds_blankImage⟩

/-- A partition of 16 KiB. -/
def tinyDevice : Device := { lowDevice with partSize := 0x4000, partSize_lt := by decide }

/-- Erased flash. -/
def erasedImage : Mem := fun _ => 0xff

/-- Erased flash behind a magic. -/
def erasedVariables : Mem := writeBytes erasedImage 0 (le32 nvramMagic)

/-- The search leaves a small partition without a magic, and the scan leaves erased variables. -/
theorem nvramOpenIn_outside :
    nvramOpenIn tinyDevice 0x4000 erasedImage false = .error .outside ∧
      nvramOpenIn lowDevice 0x8000 erasedVariables true = .error .outside := by
  constructor
  -- the erased partition has no magic, and the limit has wrapped past its end
  · have hword : ∀ pos, word erasedImage pos ≠ nvramMagic := by
      intro pos
      show word erasedImage 0 ≠ nvramMagic
      decide
    have hsearch := findMagicIn_search erasedImage 0x4000 (magicLimit tinyDevice) (0x4000 / 4 + 1) 0
      (Nat.le_refl _) (Nat.zero_le _) (Nat.zero_le _) (fun j hj => absurd hj (Nat.not_lt_zero j))
    rw [nvramOpenIn, if_neg (show tinyDevice.partSize ≠ 0 by decide)]
    generalize findMagicIn erasedImage 0x4000 (magicLimit tinyDevice) (0x4000 / 4 + 1) 0 = found
      at hsearch
    cases hsearch with
    | found i _ _ hfirst => exact absurd hfirst.1 (hword _)
    | absent hin => exact absurd hin (by decide)
    | outside => rfl
  -- the header is found, and its tuples are never terminated
  · have hfind : findMagicIn erasedVariables 0x8000 (magicLimit lowDevice) (0x8000 / 4 + 1) 0 =
        .ok (some 0) := by
      rw [findMagicIn, if_neg (Nat.not_lt_zero _), if_neg (by decide), if_pos (by decide)]
    have hdata : 0 ∉ dataIn erasedVariables 0x8000 0 := by
      intro hmem
      obtain ⟨i, hi, hbyte⟩ := List.mem_map.mp hmem
      by_cases hi4 : 0 + sizeofHeader + i < 4
      · exact absurd hi4 (by rw [sizeofHeader]; omega)
      · rw [erasedVariables, writeBytes_of_le _ (Nat.not_lt.mp hi4)] at hbyte
        exact absurd hbyte (show (0xff : UInt8) ≠ 0 by decide)
    exact nvramOpenIn_of_unended (by decide) hfind hdata

end HandsomeMod.Native.Nvram
