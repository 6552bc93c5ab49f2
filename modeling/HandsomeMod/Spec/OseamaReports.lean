import HandsomeMod.Native.Oseama

/-!
# What `oseama` reports

When the results of `oseama info` and `oseama extract` tell what became of the command. Neither
looks at what the loop over the entities returns, and the end of empty meta data is in front of the
buffer.
-/

namespace HandsomeMod.Native.Oseama

open ForStd

/-! ### The format -/

/-- The sizes of the meta data and the image of an entity that is completely in the file. -/
def entityAt (file : List UInt8) (pos : Nat) : Option (Nat × Nat) :=
  let hdr := readAt file pos sizeofEntityHdr
  if hdr.length = sizeofEntityHdr ∧ beField 4 hdr 0 = seamaMagic ∧
      pos + sizeofEntityHdr + beField 2 hdr 6 + beField 4 hdr 8 ≤ file.length then
    some (beField 2 hdr 6, beField 4 hdr 8)
  else none

/-- Header, meta data and image of the `n`th entity from a position on. -/
def nthEntity (file : List UInt8) : Nat → Nat → Option (List UInt8)
  | 0, pos =>
    (entityAt file pos).map fun e => readAt file pos (sizeofEntityHdr + e.1 + e.2)
  | n + 1, pos =>
    (entityAt file pos).bind fun e => nthEntity file n (pos + sizeofEntityHdr + e.1 + e.2)

/-- The size of the meta data behind the seal header. -/
def sealMeta (file : List UInt8) : Option Nat :=
  let hdr := readAt file 0 sizeofSealHdr
  if hdr.length = sizeofSealHdr ∧ beField 4 hdr 0 = seamaMagic then some (beField 2 hdr 6) else none

/-- Header, meta data and image of an entity of a Seama file. -/
def entity (file : List UInt8) (n : Nat) : Option (List UInt8) :=
  (sealMeta file).bind fun metasize => nthEntity file n (sizeofSealHdr + metasize)

/-- The entities from a position up to the end of the file. -/
inductive Entities (file : List UInt8) : Nat → List (Nat × Nat) → Prop
  | done : Entities file file.length []
  | next {pos : Nat} {e : Nat × Nat} {l : List (Nat × Nat)} (h : entityAt file pos = some e)
      (rest : Entities file (pos + sizeofEntityHdr + e.1 + e.2) l) : Entities file pos (e :: l)

/-! ### The properties -/

/-- A status of 0 means that the output is the entity. -/
def ExtractReports (w : Nat) (entityIdx : Int) (outPath : Option (Option Disk))
    (seama : Option (List UInt8)) : Prop :=
  ∃ out st, oseamaExtract w entityIdx outPath seama = .ok (out, st) ∧
    (st = 0 → ∃ file e, seama = some file ∧ 0 ≤ entityIdx ∧
      entity file entityIdx.toNat = some e ∧ out = some e)

/-- A status of 0 means that the file consists of a seal and whole entities, among them the one that
    is asked for. -/
def InfoReports (w : Nat) (entityIdx : Int) (buf bufEntities : List UInt8)
    (seama : Option (List UInt8)) : Prop :=
  ∃ fuel lines st, oseamaInfo w fuel entityIdx buf bufEntities seama = .ok (lines, st) ∧
    (st = 0 → ∃ file metasize l, seama = some file ∧ sealMeta file = some metasize ∧
      Entities file (sizeofSealHdr + metasize) l ∧ entityIdx < l.length)

/-! ### When they hold -/

/-- The meta data that is printed, up to the first that does not fit, is not empty. -/
def metasPrintable (entityIdx : Int) : Nat → List (Nat × Nat) → Prop
  | _, [] => True
  | i, e :: l =>
    if entityIdx ≥ 0 ∧ i ≠ entityIdx then metasPrintable entityIdx (i + 1) l
    else e.1 ≥ bufSize ∨ e.1 ≠ 0 ∧ metasPrintable entityIdx (i + 1) l

/-- The seal is refused by `oseama info`. -/
def sealRefused (file : List UInt8) : Prop :=
  file.length < sizeofSealHdr ∨ beField 4 (readAt file 0 sizeofSealHdr) 0 ≠ seamaMagic ∨
    beField 2 (readAt file 0 sizeofSealHdr) 6 ≥ bufSize ∨
    beField 4 (readAt file 0 sizeofSealHdr) 8 ≠ 0 ∨
    file.length < sizeofSealHdr + beField 2 (readAt file 0 sizeofSealHdr) 6

/-! ### Reading -/

/-- A read gives what is asked for, or what is left. -/
private theorem length_readAt (file : List UInt8) (pos n : Nat) :
    (readAt file pos n).length = min n (file.length - pos) := by
  rw [readAt, List.length_take, List.length_drop]

/-- A length that fits a `long`. -/
private theorem toLong_of_lt {w n : Nat} (hw : 1 ≤ w) (h : n < 2 ^ (w - 1)) : toLong w n = n := by
  have hpow : 2 ^ w = 2 * 2 ^ (w - 1) := by
    rw [← Nat.pow_succ']
    congr 1
    omega
  rw [toLong, Nat.mod_eq_of_lt (by omega), if_pos h]

/-- Seeking forward by a length that fits. -/
private theorem seekCur_of_lt {w off : Nat} (hw : 1 ≤ w) (h : off < 2 ^ (w - 1)) (pos : Nat) :
    seekCur w pos off = pos + off := by
  rw [seekCur, toLong_of_lt hw h, if_neg (by omega)]
  omega

/-- Back to the header that was read. -/
private theorem seekCur_back {w n : Nat} (hw : 32 ≤ w) (hn : 0 < n) (hn' : n < 2 ^ 31) (pos : Nat) :
    seekCur w (pos + n) (2 ^ w - n) = pos := by
  have hpow : 2 ^ w = 2 * 2 ^ (w - 1) := by
    rw [← Nat.pow_succ']
    congr 1
    omega
  have hle : 2 ^ 31 ≤ 2 ^ (w - 1) := Nat.pow_le_pow_right Nat.two_pos (by omega)
  -- the offset is `-n` as a `long`
  have hlong : toLong w (2 ^ w - n) = -n := by
    rw [toLong, Nat.mod_eq_of_lt (by omega), if_neg (by omega)]
    have hcast : ((2 : Int) ^ w) = (2 ^ w : Nat) := (Nat.cast_pow 2 w).symm
    rw [hcast]
    omega
  rw [seekCur, hlong, if_neg (by omega)]
  omega

/-! ### Extract -/

/-- The copy keeps to the room. -/
private theorem length_copyEntity {seama : List UInt8} {room fuel pos length : Nat}
    {out : List UInt8}
    {r : List UInt8 × Nat × Int} (hout : out.length ≤ room)
    (h : copyEntity seama room fuel pos length out = .ok r) : r.1.length ≤ room := by
  induction fuel generalizing pos length out with
  | zero => cases h
  | succ fuel ih =>
    -- `fwrite` takes no more than there is room for
    have hwrite (buf : List UInt8) : (fwrite room out buf).1.length ≤ room := by
      rw [fwrite, List.length_append, List.length_take]
      omega
    rw [copyEntity] at h
    simp only at h
    split at h
    · split at h
      · cases h
        exact hwrite _
      · exact ih (hwrite _) h
    · cases h
      exact hout

/-- Two reads that follow one another. -/
private theorem readAt_add (file : List UInt8) (pos m n : Nat) :
    readAt file pos (m + n) = readAt file pos m ++ readAt file (pos + m) n := by
  rw [readAt, readAt, readAt, List.take_add, List.drop_drop]

/-- An entity that is in the file and for which there is room is copied. -/
private theorem copyEntity_eq {seama : List UInt8} {room fuel pos length : Nat} {out : List UInt8}
    (hfuel : length < fuel) (hin : pos + length ≤ seama.length)
    (hroom : out.length + length ≤ room) :
    copyEntity seama room fuel pos length out = .ok (out ++ readAt seama pos length, 0, 0) := by
  -- each turn copies one buffer, and the file system has room for all of them
  induction fuel generalizing pos length out with
  | zero => exact absurd hfuel (Nat.not_lt_zero _)
  | succ fuel ih =>
    have hbuf : (readAt seama pos (min bufSize length)).length = min bufSize length := by
      rw [length_readAt]
      omega
    rw [copyEntity]
    simp only [hbuf]
    by_cases hlen : length = 0
    · rw [if_neg (by omega), hlen, readAt, List.take_zero, List.append_nil]
      rfl
    · have hsize : bufSize = 1024 := rfl
      have hfits : min bufSize length ≤ room - out.length := by omega
      have hwrite : fwrite room out (readAt seama pos (min bufSize length)) =
          (out ++ readAt seama pos (min bufSize length), min bufSize length) := by
        rw [fwrite, List.take_of_length_le (by rw [hbuf]; exact hfits), hbuf,
          Nat.min_eq_left hfits]
      rw [if_pos (by omega), hwrite, if_neg (by simp),
        ih (by omega) (by omega) (by rw [List.length_append, hbuf]; omega), List.append_assoc,
        ← readAt_add, Nat.add_sub_cancel' (Nat.min_le_right _ _)]

/-- The header of an entity that is there. -/
private theorem entityAt_eq_some {file : List UInt8} {pos : Nat} {e : Nat × Nat}
    (h : entityAt file pos = some e) :
    (readAt file pos sizeofEntityHdr).length = sizeofEntityHdr ∧
      beField 4 (readAt file pos sizeofEntityHdr) 0 = seamaMagic ∧
      beField 2 (readAt file pos sizeofEntityHdr) 6 = e.1 ∧
      beField 4 (readAt file pos sizeofEntityHdr) 8 = e.2 ∧
      pos + sizeofEntityHdr + e.1 + e.2 ≤ file.length := by
  rw [entityAt] at h
  split at h
  · rename_i hgood
    cases h
    exact ⟨hgood.1, hgood.2.1, rfl, rfl, hgood.2.2⟩
  · cases h

variable {w : Nat} {file : List UInt8}

/-- With room for it, the entity is the output. -/
private theorem oseamaExtractEntity_eq (hw : 32 ≤ w) (hfile : file.length < 2 ^ (w - 1))
    {room : Nat}
    {n pos i : Nat} {e : List UInt8} (h : nthEntity file n pos = some e) (hroom : e.length ≤ room) :
    oseamaExtractEntity w file room ((i + n : Nat) : Int) (n + 1) pos i = .ok (e, 0) := by
  have hpow : 2 ^ w = 2 * 2 ^ (w - 1) := by
    rw [← Nat.pow_succ']
    congr 1
    omega
  have hhdr : sizeofEntityHdr = 28 := rfl
  -- the entities in front are skipped by their sizes, the one asked for is copied
  induction n generalizing pos i with
  | zero =>
    obtain ⟨en, hen, rfl⟩ := Option.map_eq_some_iff.mp h
    obtain ⟨hlen, hmagic, hmeta, himage, hin⟩ := entityAt_eq_some hen
    have hsize : (sizeofEntityHdr + en.1 + en.2) % 2 ^ w = sizeofEntityHdr + en.1 + en.2 :=
      Nat.mod_eq_of_lt (by omega)
    have hcopy : copyEntity file room (file.length + 1) pos (sizeofEntityHdr + en.1 + en.2) [] =
        .ok (readAt file pos (sizeofEntityHdr + en.1 + en.2), 0, 0) := by
      rw [copyEntity_eq (by omega) (by omega), List.nil_append]
      rw [length_readAt] at hroom
      show 0 + _ ≤ room
      omega
    rw [oseamaExtractEntity]
    simp only [hlen, hmagic, hmeta, himage, if_true, ne_eq, not_true_eq_false, if_false,
      seekCur_back hw (show 0 < sizeofEntityHdr by decide) (by decide), hsize, hcopy,
      Nat.add_zero]
    rfl
  | succ n ih =>
    obtain ⟨en, hen, hrest⟩ := Option.bind_eq_some_iff.mp h
    obtain ⟨hlen, hmagic, hmeta, himage, hin⟩ := entityAt_eq_some hen
    have hseek : seekCur w (pos + sizeofEntityHdr) (en.1 + en.2) =
        pos + sizeofEntityHdr + en.1 + en.2 := by
      rw [seekCur_of_lt (by omega) (by omega), Nat.add_assoc _ en.1]
    -- this is not the entity asked for
    have hother : (i : Int) ≠ ((i + (n + 1) : Nat) : Int) := by omega
    rw [oseamaExtractEntity]
    simp only [hlen, hmagic, hmeta, himage, if_true, ne_eq, not_true_eq_false, if_false, hseek]
    rw [if_pos hother, show i + (n + 1) = i + 1 + n by omega]
    exact ih hrest

/-- The copy ends, whatever the length. -/
private theorem copyEntity_ok {seama : List UInt8} {room fuel pos length : Nat} {out : List UInt8}
    (hfuel : seama.length - pos < fuel) :
    ∃ r, copyEntity seama room fuel pos length out = .ok r := by
  induction fuel generalizing pos length out with
  | zero => exact absurd hfuel (Nat.not_lt_zero _)
  | succ fuel ih =>
    rw [copyEntity]
    simp only
    split
    · rename_i hpos
      split
      · exact ⟨_, rfl⟩
      · apply ih
        have hlen := length_readAt seama pos (min bufSize length)
        omega
    · exact ⟨_, rfl⟩

/-- The loop ends at the entity with the index at the latest, and does not write more than there is
    room for. -/
private theorem oseamaExtractEntity_ok (w : Nat) (seama : List UInt8) (room : Nat) {entityIdx : Int}
    {fuel pos i : Nat} (hi : (i : Int) ≤ entityIdx) (hfuel : entityIdx < i + fuel) :
    ∃ r, oseamaExtractEntity w seama room entityIdx fuel pos i = .ok r ∧ r.1.length ≤ room := by
  -- the index goes up to the one asked for, so the fuel lasts
  induction fuel generalizing pos i with
  | zero => omega
  | succ fuel ih =>
    rw [oseamaExtractEntity]
    simp only
    split
    · split
      · exact ⟨_, rfl, Nat.zero_le _⟩
      · split
        · exact ih (by omega) (by omega)
        · obtain ⟨r, hr⟩ := @copyEntity_ok seama room (seama.length + 1)
            (seekCur w (pos + sizeofEntityHdr) (2 ^ w - sizeofEntityHdr))
            ((sizeofEntityHdr + beField 2 (readAt seama pos sizeofEntityHdr) 6 +
              beField 4 (readAt seama pos sizeofEntityHdr) 8) % 2 ^ w) [] (by omega)
          have hroom := length_copyEntity (Nat.zero_le room) hr
          simp only [bind, Except.bind, hr]
          split
          · exact ⟨_, rfl, hroom⟩
          · exact ⟨_, rfl, hroom⟩
    · exact ⟨_, rfl, Nat.zero_le _⟩

/-- `oseama extract` ends, and stays inside of its buffers. -/
theorem oseamaExtract_ok (w : Nat) (entityIdx : Int) (outPath : Option (Option Disk))
    (seama : Option (List UInt8)) : ∃ r, oseamaExtract w entityIdx outPath seama = .ok r := by
  unfold oseamaExtract
  split
  · exact ⟨_, rfl⟩
  · split
    · exact ⟨_, rfl⟩
    · split
      · exact ⟨_, rfl⟩
      · exact ⟨_, rfl⟩
      -- only the loop over the entities can fault, and it does not
      · rename_i file disk
        simp only
        split
        · exact ⟨_, rfl⟩
        · obtain ⟨r, hr, -⟩ := @oseamaExtractEntity_ok w file disk.room entityIdx
            (entityIdx.toNat + 1) (seekCur w sizeofSealHdr
              (beField 2 (readAt file 0 sizeofSealHdr) 6)) 0 (by omega) (by omega)
          simp only [bind, Except.bind, hr]
          exact ⟨_, rfl⟩

/-- Without an output or without one of the files the result is not 0. -/
theorem extractReports_of_refused {entityIdx : Int} {outPath : Option (Option Disk)}
    {seama : Option (List UInt8)}
    (h : ∀ disk file, ¬(outPath = some (some disk) ∧ seama = some file)) :
    ExtractReports w entityIdx outPath seama := by
  unfold ExtractReports oseamaExtract
  split
  · exact ⟨none, -22, rfl, fun h => absurd h (by decide)⟩
  · split
    · exact ⟨none, -22, rfl, fun h => absurd h (by decide)⟩
    · split
      · exact ⟨none, -13, rfl, fun h => absurd h (by decide)⟩
      · exact ⟨none, -13, rfl, fun h => absurd h (by decide)⟩
      · rename_i file disk
        exact absurd ⟨rfl, rfl⟩ (h disk file)

/-- With a whole seal header the result is 0. -/
private theorem oseamaExtract_eq (hw : 32 ≤ w) {entityIdx : Int} (hidx : ¬entityIdx < 0)
    (disk : Disk)
    (hlen : (readAt file 0 sizeofSealHdr).length = sizeofSealHdr) {r : List UInt8 × Int}
    (h : oseamaExtractEntity w file disk.room entityIdx (entityIdx.toNat + 1)
      (sizeofSealHdr + beField 2 (readAt file 0 sizeofSealHdr) 6) 0 = .ok r) :
    oseamaExtract w entityIdx (some (some disk)) (some file) =
      .ok (some (r.1.take disk.kept), 0) := by
  have hseek : seekCur w sizeofSealHdr (beField 2 (readAt file 0 sizeofSealHdr) 6) =
      sizeofSealHdr + beField 2 (readAt file 0 sizeofSealHdr) 6 := by
    apply seekCur_of_lt (by omega)
    exact Nat.lt_of_lt_of_le (beField_lt 2 _ 6) (Nat.pow_le_pow_right Nat.two_pos (by omega))
  unfold oseamaExtract
  simp only [if_neg hidx, hlen, ne_eq, not_true_eq_false, if_false, hseek, bind, Except.bind, h]
  rfl

/-! ### Files that can be read and written -/

/-- With room for the file nothing is lost in the copy. -/
private theorem copyEntity_eq_copyLoop {seama : List UInt8} {room fuel pos length : Nat}
    {out : List UInt8}
    (hfuel : seama.length - pos < fuel) (hroom : out.length + (seama.length - pos) ≤ room) :
    copyEntity seama room fuel pos length out =
      .ok ((copyLoop seama fuel pos length out).1, (copyLoop seama fuel pos length out).2, 0) := by
  induction fuel generalizing pos length out with
  | zero => exact absurd hfuel (Nat.not_lt_zero _)
  | succ fuel ih =>
    have hsize : bufSize = 1024 := rfl
    have hbuf := length_readAt seama pos (min 1024 length)
    rw [copyEntity, copyLoop, hsize]
    simp only
    by_cases hend : (readAt seama pos (min 1024 length)).length = 0
    · rw [if_neg (by omega), if_pos hend]
      rfl
    -- the disk has room for the rest of the file, so nothing is cut
    · have hwrite : fwrite room out (readAt seama pos (min 1024 length)) =
          (out ++ readAt seama pos (min 1024 length),
            (readAt seama pos (min 1024 length)).length) := by
        have hle : (readAt seama pos (min 1024 length)).length ≤ room - out.length := by omega
        rw [fwrite, List.take_of_length_le hle, Nat.min_eq_left hle]
      rw [if_pos (by omega), if_neg hend, hwrite, if_neg (fun hne => hne rfl)]
      exact ih (by omega) (by rw [List.length_append]; omega)

/-- No seek of the loop over the entities wraps, so that it goes through the file from the front. -/
private theorem oseamaExtractEntity_eq_extractEntity (hw : 34 ≤ w) {room k fuel fuel' pos i : Nat}
    (hi : i ≤ k) (hfuel : k < i + fuel) (hfuel' : file.length - pos < fuel')
    (hroom : file.length ≤ room) :
    oseamaExtractEntity w file room k fuel pos i = .ok (extractEntity file k fuel' pos i) := by
  have hpow : 2 ^ 33 ≤ 2 ^ (w - 1) := Nat.pow_le_pow_right Nat.two_pos (by omega)
  have hdouble : 2 ^ w = 2 * 2 ^ (w - 1) := by
    rw [← Nat.pow_succ']
    congr 1
    omega
  have hhdr : sizeofEntityHdr = 28 := rfl
  -- both loops read the same headers and move by the same sizes
  induction fuel generalizing pos i fuel' with
  | zero => omega
  | succ fuel ih =>
    obtain ⟨fuel', rfl⟩ := Nat.exists_eq_add_one_of_ne_zero (Nat.ne_of_gt (Nat.zero_lt_of_lt hfuel'))
    have hmeta := beField_lt 2 (readAt file pos sizeofEntityHdr) 6
    have himage := beField_lt 4 (readAt file pos sizeofEntityHdr) 8
    rw [oseamaExtractEntity, extractEntity]
    simp only
    by_cases hlen : (readAt file pos sizeofEntityHdr).length = sizeofEntityHdr
    · rw [if_pos hlen, if_neg (not_not.mpr hlen)]
      rw [length_readAt] at hlen
      by_cases hmagic : beField 4 (readAt file pos sizeofEntityHdr) 0 ≠ seamaMagic
      · rw [if_pos hmagic, if_pos hmagic]
        rfl
      · rw [if_neg hmagic, if_neg hmagic]
        by_cases hik : i ≠ k
        · rw [if_pos (by omega), if_pos hik, seekCur_of_lt (by omega) (by omega)]
          exact ih (by omega) (by omega) (by omega)
        -- the entity asked for: both seek back and copy it whole
        · rw [if_neg (by omega), if_neg hik, seekCur_back (by omega) (by decide) (by decide),
            Nat.mod_eq_of_lt (by omega),
            copyEntity_eq_copyLoop (by omega) (by rw [List.length_nil]; omega)]
          simp only [bind, Except.bind]
          split <;> rfl
    · rw [if_neg hlen, if_pos hlen]
      rfl

/-- Where the output has room for the file, `oseama extract` with a `size_t` of 64 bits does what
    `extract` says. -/
theorem oseamaExtract_eq_extract (hw : 34 ≤ w) (k : Nat) (disk : Disk)
    (hroom : file.length ≤ disk.room) (hkept : file.length ≤ disk.kept) :
    oseamaExtract w k (some (some disk)) (some file) =
      .ok (some (extract file k).1, (extract file k).2) := by
  have hidx : ¬(k : Int) < 0 := by omega
  by_cases hlen : (readAt file 0 sizeofSealHdr).length = sizeofSealHdr
  · have hloop (room : Nat) (hle : file.length ≤ room) :=
      @oseamaExtractEntity_eq_extractEntity w file hw room k (k + 1) (file.length + 1)
        (sizeofSealHdr + beField 2 (readAt file 0 sizeofSealHdr) 6) 0 (Nat.zero_le k) (by omega)
        (by omega) hle
    -- what the loop writes is part of the file
    obtain ⟨r, hr, hbound⟩ := @oseamaExtractEntity_ok w file file.length k (k + 1)
      (sizeofSealHdr + beField 2 (readAt file 0 sizeofSealHdr) 6) 0 (by omega) (by omega)
    rw [hloop file.length (Nat.le_refl _)] at hr
    obtain rfl := Except.ok.inj hr
    rw [oseamaExtract_eq (by omega) hidx disk hlen (hloop disk.room hroom),
      List.take_of_length_le (Nat.le_trans hbound hkept), extract]
    simp only [hlen, ne_eq, not_true_eq_false, if_false]
  · unfold oseamaExtract extract
    simp only [if_neg hidx, ne_eq, hlen, not_false_eq_true, if_true]
    rfl

/-- The result of `oseama extract` tells of the output when it refuses to begin, or when the entity
    is there and can be written. -/
theorem extractReports_iff (hw : 32 ≤ w) (entityIdx : Int) (disk : Disk)
    (hfile : file.length < 2 ^ (w - 1)) :
    ExtractReports w entityIdx (some (some disk)) (some file) ↔
      entityIdx < 0 ∨ file.length < sizeofSealHdr ∨
        ∃ e, entity file entityIdx.toNat = some e ∧ e.length ≤ disk.room ∧
          e.length ≤ disk.kept := by
  by_cases hidx : entityIdx < 0
  · refine ⟨fun _ => .inl hidx, fun _ => ⟨none, -22, ?_, fun h => absurd h (by decide)⟩⟩
    unfold oseamaExtract
    rw [if_pos hidx]
    rfl
  · by_cases hshort : file.length < sizeofSealHdr
    · refine ⟨fun _ => .inr (.inl hshort), fun _ =>
        ⟨some [], -5, ?_, fun h => absurd h (by decide)⟩⟩
      have hlen : (readAt file 0 sizeofSealHdr).length ≠ sizeofSealHdr := by
        rw [length_readAt]
        omega
      unfold oseamaExtract
      simp only [if_neg hidx, if_pos hlen]
      rfl
    · have hlen : (readAt file 0 sizeofSealHdr).length = sizeofSealHdr := by
        rw [length_readAt]
        omega
      simp only [hidx, hshort, false_or]
      constructor
      -- a report of success is about the bytes that the disk took
      · rintro ⟨out, st, heq, hreport⟩
        obtain ⟨r, hr, hroom⟩ := @oseamaExtractEntity_ok w file disk.room entityIdx
          (entityIdx.toNat + 1) (sizeofSealHdr + beField 2 (readAt file 0 sizeofSealHdr) 6) 0
          (by omega) (by omega)
        rw [oseamaExtract_eq hw hidx disk hlen hr] at heq
        cases heq
        obtain ⟨file', e, hsome, -, he, hout⟩ := hreport rfl
        cases hsome
        refine ⟨e, he, ?_, ?_⟩
        · rw [← Option.some.inj hout, List.length_take]
          omega
        · rw [← Option.some.inj hout, List.length_take]
          omega
      -- with room for all of it the whole entity is copied
      · rintro ⟨e, he, hroom, hkept⟩
        obtain ⟨metasize, hseal, hnth⟩ := Option.bind_eq_some_iff.mp he
        have hmeta : metasize = beField 2 (readAt file 0 sizeofSealHdr) 6 := by
          rw [sealMeta] at hseal
          split at hseal
          · exact (Option.some.inj hseal).symm
          · cases hseal
        have hentity := @oseamaExtractEntity_eq w file hw hfile disk.room entityIdx.toNat _ 0 e
          hnth hroom
        rw [Nat.zero_add, Int.toNat_of_nonneg (by omega), hmeta] at hentity
        refine ⟨_, 0, oseamaExtract_eq hw hidx disk hlen hentity, fun _ =>
          ⟨file, e, rfl, by omega, he, ?_⟩⟩
        rw [List.take_of_length_le hkept]

/-! ### Info -/

/-- The strings up to a terminator are found. -/
private theorem metaLoop_ok {buf : List UInt8} {stop fuel tmp : Nat} (hstop : stop < buf.length)
    (hzero : buf.getD stop 1 = 0) (hfuel : stop - tmp < fuel) :
    ∃ lines, metaLoop buf stop fuel tmp = .ok lines := by
  -- there is a terminator at `stop`, so every string that begins before it ends
  induction fuel generalizing tmp with
  | zero => exact absurd hfuel (Nat.not_lt_zero _)
  | succ fuel ih =>
    rw [metaLoop]
    by_cases htmp : (tmp : Int) < stop
    · have hmem : (0 : UInt8) ∈ buf.drop tmp := by
        have hget : (buf.drop tmp)[stop - tmp]? = some 0 := by
          rw [List.getElem?_drop, Nat.add_sub_cancel' (by omega), List.getElem?_eq_getElem hstop]
          rw [List.getD_eq_getElem _ _ hstop] at hzero
          rw [hzero]
        exact List.mem_of_getElem? hget
      rw [if_pos htmp, stringAt, if_pos hmem]
      simp only [bind, Except.bind]
      split
      · obtain ⟨lines, hlines⟩ := ih (show stop - (tmp + _ + 1) < fuel by omega)
        rw [hlines]
        exact ⟨_, rfl⟩
      · exact ⟨_, rfl⟩
    · rw [if_neg htmp]
      exact ⟨_, rfl⟩

/-- Meta data that fit the buffer are printed. -/
private theorem printMeta_ok {buf : List UInt8} {metasize : Nat} (hbuf : buf.length = bufSize)
    (hpos : metasize ≠ 0) (hle : metasize ≤ bufSize) :
    ∃ buf' lines, printMeta buf metasize = .ok (buf', lines) ∧ buf'.length = bufSize := by
  have hlast : ((metasize : Int) - 1) = (metasize - 1 : Nat) := by omega
  -- the last byte of the metadata is inside the buffer
  have hset : setByte buf (metasize - 1 : Nat) 0 = .ok (buf.set (metasize - 1) 0) := by
    rw [setByte, if_pos (by omega), Int.toNat_natCast]
  have hlen : (buf.set (metasize - 1) 0).length = bufSize := by
    rw [List.length_set, hbuf]
  obtain ⟨lines, hlines⟩ := @metaLoop_ok (buf.set (metasize - 1) 0) (metasize - 1) (bufSize + 1) 0
    (by omega) (by rw [List.getD_eq_getElem?_getD, List.getElem?_set_self (by omega)]; rfl)
    (by omega)
  refine ⟨_, lines, ?_, hlen⟩
  rw [printMeta]
  simp only [hlast, bind, Except.bind, hset, hlines]
  rfl

/-- Of empty meta data the byte in front of the buffer is read. -/
theorem printMeta_empty (buf : List UInt8) : printMeta buf 0 = .error .bounds := by
  rw [printMeta, setByte, if_neg (by omega)]
  rfl

/-- A read into the buffer keeps its length. -/
private theorem length_overwrite {buf got : List UInt8} (h : got.length ≤ buf.length) :
    (Seama.overwrite buf got).length = buf.length := by
  rw [Seama.overwrite, List.length_append, List.length_drop]
  omega

variable {entityIdx : Int}

/-- An entity that is not asked for is skipped. -/
private theorem oseamaInfoEntities_skip (hw : 32 ≤ w) (hfile : file.length < 2 ^ (w - 1))
    {pos i : Nat}
    {e : Nat × Nat} (h : entityAt file pos = some e) (hskip : entityIdx ≥ 0 ∧ i ≠ entityIdx)
    (fuel : Nat) (buf : List UInt8) (lines : List (List UInt8)) :
    oseamaInfoEntities w file entityIdx (fuel + 1) pos i buf lines =
      oseamaInfoEntities w file entityIdx fuel (pos + sizeofEntityHdr + e.1 + e.2) (i + 1) buf
        lines := by
  obtain ⟨hlen, hmagic, hmeta, himage, hin⟩ := entityAt_eq_some h
  have hseek : seekCur w (pos + sizeofEntityHdr) (e.1 + e.2) =
      pos + sizeofEntityHdr + e.1 + e.2 := by
    rw [seekCur_of_lt (by omega) (by omega), Nat.add_assoc _ e.1]
  rw [oseamaInfoEntities]
  simp only [hlen, hmagic, hmeta, himage, if_true, ne_eq, not_true_eq_false, if_false, hseek]
  rw [if_pos hskip]

/-- An entity that is shown: its meta data is refused, or its end is written. -/
private theorem oseamaInfoEntities_show (hw : 32 ≤ w) (hfile : file.length < 2 ^ (w - 1))
    {pos i : Nat}
    {e : Nat × Nat} (h : entityAt file pos = some e) (hshow : ¬(entityIdx ≥ 0 ∧ i ≠ entityIdx))
    {buf : List UInt8} (hbuf : buf.length = bufSize) (lines : List (List UInt8)) :
    (e.1 ≥ bufSize → ∃ r, ∀ fuel,
      oseamaInfoEntities w file entityIdx (fuel + 1) pos i buf lines = .ok r) ∧
    (e.1 = 0 → ∀ fuel,
      oseamaInfoEntities w file entityIdx (fuel + 1) pos i buf lines = .error .bounds) ∧
    (e.1 < bufSize → e.1 ≠ 0 → ∃ buf' lines', buf'.length = bufSize ∧ ∀ fuel,
      oseamaInfoEntities w file entityIdx (fuel + 1) pos i buf lines =
        oseamaInfoEntities w file entityIdx fuel (pos + sizeofEntityHdr + e.1 + e.2) (i + 1) buf'
          lines') := by
  obtain ⟨hlen, hmagic, hmeta, himage, hin⟩ := entityAt_eq_some h
  have hread : (readAt file (pos + sizeofEntityHdr) e.1).length = e.1 := by
    rw [length_readAt]
    omega
  have hseek : seekCur w (pos + sizeofEntityHdr + e.1) e.2 =
      pos + sizeofEntityHdr + e.1 + e.2 := seekCur_of_lt (by omega) (by omega) _
  -- meta data larger than the buffer is refused, empty meta data is written before it, other is
  -- shown
  refine ⟨fun hbig => ⟨(lines, -22), fun fuel => ?_⟩, fun hzero fuel => ?_, fun hfits hpos => ?_⟩
  · rw [oseamaInfoEntities]
    simp only [hlen, hmagic, hmeta, if_true, ne_eq, not_true_eq_false, if_false, if_neg hshow]
    rw [if_pos hbig]
    rfl
  · rw [oseamaInfoEntities]
    simp only [hlen, hmagic, hmeta, himage, if_true, ne_eq, not_true_eq_false, if_false, hread,
      if_neg hshow]
    rw [if_neg (by rw [hzero]; decide), hzero, printMeta_empty]
    rfl
  · obtain ⟨buf', entries, hprint, hlen'⟩ := printMeta_ok
      ((length_overwrite (by omega)).trans hbuf : (Seama.overwrite buf
        (readAt file (pos + sizeofEntityHdr) e.1)).length = bufSize) hpos (by omega)
    refine ⟨buf', lines ++ (if entityIdx < 0 then [[]] else []) ++
      [sizeLine w (ascii "Entity offset:") (pos + sizeofEntityHdr - sizeofEntityHdr),
        sizeLine w (ascii "Entity size:") (sizeofEntityHdr + e.1 + e.2),
        sizeLine w (ascii "Meta size:") e.1, sizeLine w (ascii "Image size:") e.2] ++ entries,
      hlen', fun fuel => ?_⟩
    rw [oseamaInfoEntities]
    simp only [hlen, hmagic, hmeta, himage, if_true, ne_eq, not_true_eq_false, if_false, hread,
      hseek, if_neg hshow]
    rw [if_neg (by omega)]
    simp only [bind, Except.bind, hprint]

/-- The loop over whole entities ends exactly if the ends of the meta data that it prints are in the
    buffer. -/
private theorem oseamaInfoEntities_iff (hw : 32 ≤ w) (hfile : file.length < 2 ^ (w - 1))
    {pos i : Nat}
    {l : List (Nat × Nat)} (h : Entities file pos l) {buf : List UInt8}
    (hbuf : buf.length = bufSize) (lines : List (List UInt8)) :
    (∃ fuel r, oseamaInfoEntities w file entityIdx fuel pos i buf lines = .ok r) ↔
      metasPrintable entityIdx i l := by
  have hsucc (pos i : Nat) (buf : List UInt8) (lines : List (List UInt8)) :
      (∃ fuel r, oseamaInfoEntities w file entityIdx fuel pos i buf lines = .ok r) ↔
        ∃ fuel r, oseamaInfoEntities w file entityIdx (fuel + 1) pos i buf lines = .ok r := by
    constructor
    · rintro ⟨fuel, r, hr⟩
      cases fuel with
      | zero => cases hr
      | succ fuel => exact ⟨fuel, r, hr⟩
    · rintro ⟨fuel, r, hr⟩
      exact ⟨fuel + 1, r, hr⟩
  -- induction on the entities of the file; the buffer carries over what the last one left
  induction h generalizing i buf lines with
  | done =>
    refine ⟨fun _ => trivial, fun _ => ⟨1, (lines, 0), ?_⟩⟩
    have hlen : (readAt file file.length sizeofEntityHdr).length ≠ sizeofEntityHdr := by
      rw [length_readAt, Nat.sub_self]
      decide
    rw [oseamaInfoEntities]
    simp only [if_neg hlen]
    rfl
  | @next pos e l hat rest ih =>
    rw [hsucc, metasPrintable]
    by_cases hskip : entityIdx ≥ 0 ∧ (i : Int) ≠ entityIdx
    · simp only [if_pos hskip, oseamaInfoEntities_skip hw hfile hat hskip]
      exact ih hbuf lines
    · obtain ⟨hrefused, hempty, hnext⟩ := oseamaInfoEntities_show hw hfile hat hskip hbuf lines
      rw [if_neg hskip]
      -- meta data that does not fit into the buffer ends the loop with an error
      by_cases hbig : e.1 ≥ bufSize
      · obtain ⟨r, hr⟩ := hrefused hbig
        exact ⟨fun _ => .inl hbig, fun _ => ⟨0, r, hr 0⟩⟩
      · by_cases hzero : e.1 = 0
        · -- the terminator is written in front of the buffer
          constructor
          · rintro ⟨fuel, r, hr⟩
            rw [hempty hzero fuel] at hr
            cases hr
          · rintro (hle | ⟨hne, -⟩)
            · exact absurd hle hbig
            · exact absurd hzero hne
        · obtain ⟨buf', lines', hbuf', hstep⟩ := hnext (by omega) hzero
          simp only [hstep, ih hbuf' lines']
          exact ⟨fun h => .inr ⟨hzero, h⟩, fun h => (h.resolve_left hbig).2⟩

/-- A seal that is refused gives an error and no line. -/
private theorem oseamaInfo_refused (w fuel : Nat) (entityIdx : Int) (buf bufEntities : List UInt8)
    (h : sealRefused file) : ∃ st, st ≠ 0 ∧
      oseamaInfo w fuel entityIdx buf bufEntities (some file) = .ok ([], st) := by
  -- one status for each of the five reasons
  unfold oseamaInfo
  simp only
  split
  · exact ⟨-5, by decide, rfl⟩
  · rename_i hlen
    rw [length_readAt] at hlen
    split
    · exact ⟨-22, by decide, rfl⟩
    · rename_i hmagic
      split
      · exact ⟨-22, by decide, rfl⟩
      · rename_i hmeta
        split
        · exact ⟨-22, by decide, rfl⟩
        · rename_i himage
          split
          · exact ⟨-5, by decide, rfl⟩
          · rename_i hbytes
            rw [length_readAt] at hbytes
            rcases h with h | h | h | h | h
            · omega
            · exact absurd h hmagic
            · exact absurd h hmeta
            · exact absurd h himage
            · omega

/-- What is printed before the entities. -/
def sealLines (entityIdx : Int) (buf : List UInt8) (file : List UInt8) :
    Except Stop (List (List UInt8)) :=
  let metasize := beField 2 (readAt file 0 sizeofSealHdr) 6
  if entityIdx < 0 then do
    let (_, entries) ← printMeta
      (Seama.overwrite buf (readAt file sizeofSealHdr metasize)) metasize
    pure ([ascii "Meta size:\t" ++ decText metasize,
      ascii "Image size:\t" ++ decText (beField 4 (readAt file 0 sizeofSealHdr) 8)] ++ entries)
  else pure []

/-- Behind a seal that is accepted the result is 0. -/
theorem oseamaInfo_accepted (w fuel : Nat) (entityIdx : Int) (buf bufEntities : List UInt8)
    (h : ¬sealRefused file) :
    oseamaInfo w fuel entityIdx buf bufEntities (some file) = do
      let lines ← sealLines entityIdx buf file
      let (lines, _) ← oseamaInfoEntities w file entityIdx fuel
        (sizeofSealHdr + beField 2 (readAt file 0 sizeofSealHdr) 6) 0 bufEntities lines
      return (lines, 0) := by
  simp only [sealRefused, not_or, Nat.not_lt, not_not] at h
  obtain ⟨hlen, hmagic, hmeta, himage, hbytes⟩ := h
  have hhdr : (readAt file 0 sizeofSealHdr).length = sizeofSealHdr := by
    rw [length_readAt]
    omega
  have hread : (readAt file sizeofSealHdr (beField 2 (readAt file 0 sizeofSealHdr) 6)).length =
      beField 2 (readAt file 0 sizeofSealHdr) 6 := by
    rw [length_readAt]
    omega
  unfold oseamaInfo sealLines
  simp only [hhdr, hmagic, hmeta, himage, hread, ne_eq, not_true_eq_false, if_false]
  -- the metadata of the seal are printed when no entity is asked for
  by_cases hidx : entityIdx < 0
  · simp only [if_pos hidx, bind, Except.bind]
    cases printMeta (Seama.overwrite buf (readAt file sizeofSealHdr
      (beField 2 (readAt file 0 sizeofSealHdr) 6)))
        (beField 2 (readAt file 0 sizeofSealHdr) 6) <;> rfl
  · simp only [if_neg hidx, pure_bind]

/-- A seal that is not refused is printed. -/
private theorem sealLines_ok {buf : List UInt8} (hbuf : buf.length = bufSize)
    (h : ¬sealRefused file)
    (hmeta : entityIdx < 0 → beField 2 (readAt file 0 sizeofSealHdr) 6 ≠ 0) :
    ∃ lines, sealLines entityIdx buf file = .ok lines := by
  simp only [sealRefused, not_or, Nat.not_lt, not_not, ge_iff_le, Nat.not_le] at h
  obtain ⟨-, -, hsize, -, hbytes⟩ := h
  have hread := length_readAt file sizeofSealHdr (beField 2 (readAt file 0 sizeofSealHdr) 6)
  rw [sealLines]
  simp only
  split
  · rename_i hidx
    obtain ⟨buf', lines, hprint, -⟩ := printMeta_ok ((length_overwrite (by omega)).trans hbuf :
      (Seama.overwrite buf (readAt file sizeofSealHdr
        (beField 2 (readAt file 0 sizeofSealHdr) 6))).length = bufSize) (hmeta hidx) (by omega)
    simp only [bind, Except.bind, hprint]
    exact ⟨_, rfl⟩
  · exact ⟨_, rfl⟩

/-- The result of `oseama info` tells of the file when it refuses the seal, or when there is nothing
    to tell and the meta data that it prints is not empty. -/
theorem infoReports_iff (hw : 32 ≤ w) (hfile : file.length < 2 ^ (w - 1))
    {buf bufEntities : List UInt8} (hbuf : buf.length = bufSize)
    (hbufEntities : bufEntities.length = bufSize) :
    InfoReports w entityIdx buf bufEntities (some file) ↔ sealRefused file ∨
      ∃ l, Entities file (sizeofSealHdr + beField 2 (readAt file 0 sizeofSealHdr) 6) l ∧
        entityIdx < l.length ∧
        (entityIdx < 0 → beField 2 (readAt file 0 sizeofSealHdr) 6 ≠ 0) ∧
        metasPrintable entityIdx 0 l := by
  -- a refused seal is reported as such, whatever stands behind it
  by_cases hrefused : sealRefused file
  · obtain ⟨st, hst, heq⟩ := oseamaInfo_refused w 0 entityIdx buf bufEntities hrefused
    exact ⟨fun _ => .inl hrefused, fun _ => ⟨0, [], st, heq, fun h => absurd h hst⟩⟩
  · simp only [hrefused, false_or]
    have hinfo := fun fuel => oseamaInfo_accepted w fuel entityIdx buf bufEntities hrefused
    -- the seal was accepted, so its size is known
    have hseal : sealMeta file = some (beField 2 (readAt file 0 sizeofSealHdr) 6) := by
      simp only [sealRefused, not_or, Nat.not_lt, not_not] at hrefused
      obtain ⟨hlen, hmagic, -⟩ := hrefused
      rw [sealMeta, if_pos ⟨by rw [length_readAt]; omega, hmagic⟩]
    constructor
    · rintro ⟨fuel, lines, st, heq, hreport⟩
      rw [hinfo fuel] at heq
      simp only [bind, Except.bind] at heq
      cases hlines : sealLines entityIdx buf file with
      | error _ =>
        rw [hlines] at heq
        cases heq
      | ok lines' =>
        rw [hlines] at heq
        simp only at heq
        cases hentities : oseamaInfoEntities w file entityIdx fuel
            (sizeofSealHdr + beField 2 (readAt file 0 sizeofSealHdr) 6) 0 bufEntities lines' with
        | error _ =>
          rw [hentities] at heq
          cases heq
        | ok r =>
          rw [hentities] at heq
          cases heq
          obtain ⟨file', metasize, l, hsome, hmeta, hl, hidx⟩ := hreport rfl
          cases hsome
          cases hseal.symm.trans hmeta
          refine ⟨l, hl, hidx, ?_, ?_⟩
          · intro hneg hzero
            rw [sealLines] at hlines
            simp only [if_pos hneg, hzero, printMeta_empty] at hlines
            cases hlines
          · exact (oseamaInfoEntities_iff hw hfile hl hbufEntities lines').mp ⟨fuel, r, hentities⟩
    -- meta data that can be printed lets the loop over the entities end
    · rintro ⟨l, hl, hidx, hmeta, hprintable⟩
      obtain ⟨lines, hlines⟩ := sealLines_ok hbuf hrefused hmeta
      obtain ⟨fuel, r, hr⟩ :=
        (oseamaInfoEntities_iff hw hfile hl hbufEntities lines).mpr hprintable
      refine ⟨fuel, r.1, 0, ?_, fun _ => ⟨file, _, l, rfl, hseal, hl, hidx⟩⟩
      rw [hinfo fuel, hlines]
      simp only [bind, Except.bind, hr]
      rfl

/-! ### Both commands -/

/-- `oseama extract` always ends inside of its buffers. Its result tells of the output, and that of
    `oseama info` of the file, exactly if there is nothing to tell behind the seal header, or behind
    the seal, apart from empty meta data that would be printed. -/
theorem reports_iff (w : Nat) (hw : 32 ≤ w) (entityIdx : Int) (buf bufEntities : List UInt8)
    (hbuf : buf.length = bufSize) (hbufEntities : bufEntities.length = bufSize)
    (outPath : Option (Option Disk)) (seama : Option (List UInt8))
    (hseama : ∀ file, seama = some file → file.length < 2 ^ (w - 1)) :
    (∃ r, oseamaExtract w entityIdx outPath seama = .ok r) ∧
    (ExtractReports w entityIdx outPath seama ↔
      ∀ disk file, outPath = some (some disk) → seama = some file →
        entityIdx < 0 ∨ file.length < sizeofSealHdr ∨
          ∃ e, entity file entityIdx.toNat = some e ∧ e.length ≤ disk.room ∧
            e.length ≤ disk.kept) ∧
    (InfoReports w entityIdx buf bufEntities seama ↔
      ∀ file, seama = some file → sealRefused file ∨
        ∃ l, Entities file (sizeofSealHdr + beField 2 (readAt file 0 sizeofSealHdr) 6) l ∧
          entityIdx < l.length ∧
          (entityIdx < 0 → beField 2 (readAt file 0 sizeofSealHdr) 6 ≠ 0) ∧
          metasPrintable entityIdx 0 l) := by
  refine ⟨oseamaExtract_ok w entityIdx outPath seama, ?_, ?_⟩
  -- without both files open nothing is reported
  · by_cases hfiles : ∃ disk file, outPath = some (some disk) ∧ seama = some file
    · obtain ⟨disk, file, rfl, rfl⟩ := hfiles
      rw [extractReports_iff hw entityIdx disk (hseama file rfl)]
      refine ⟨fun h disk' file' hdisk hfile => ?_, fun h => h disk file rfl rfl⟩
      cases hdisk
      cases hfile
      exact h
    · exact ⟨fun _ disk file hdisk hfile => absurd ⟨disk, file, hdisk, hfile⟩ hfiles,
        fun _ => extractReports_of_refused fun disk file h => hfiles ⟨disk, file, h⟩⟩
  · cases seama with
    | none =>
      refine ⟨fun _ file h => ?_, fun _ => ⟨0, [], -13, rfl, fun h => absurd h (by decide)⟩⟩
      cases h
    | some file =>
      rw [infoReports_iff hw (hseama file rfl) hbuf hbufEntities]
      refine ⟨fun h file' hfile' => ?_, fun h => h file rfl⟩
      cases hfile'
      exact h

/-- A seal and one entity without meta data, with an image of two bytes. -/
def sampleSeal : List UInt8 :=
  [0x5e, 0xa3, 0xa4, 0x17, 0, 0, 0, 0, 0, 0, 0, 0] ++
    [0x5e, 0xa3, 0xa4, 0x17, 0, 0, 0, 0, 0, 0, 0, 2] ++ List.replicate 16 0 ++ [1, 2]

/-- A seal of one entity. -/
theorem reports_iff_sample : ExtractReports 32 0 (some (some ⟨4096, 4096⟩)) (some sampleSeal) := by
  have hiff := (reports_iff 32 (by decide) 0 (List.replicate bufSize 0) (List.replicate bufSize 0)
    List.length_replicate List.length_replicate (some (some ⟨4096, 4096⟩)) (some sampleSeal)
    (by rintro file hfile; cases hfile; decide)).2.1
  refine hiff.mpr fun disk file hdisk hfile => ?_
  cases hdisk
  cases hfile
  exact .inr (.inr ⟨_, rfl, by decide, by decide⟩)

/-- A seal without entities and without meta data: `oseama extract` of its first entity reports
    success, and `oseama info` writes in front of its buffer. -/
theorem emptySeal_misreported :
    oseamaExtract 32 0 (some (some ⟨4096, 4096⟩)) (some (sampleSeal.take 12)) = .ok (some [], 0) ∧
      ¬ExtractReports 32 0 (some (some ⟨4096, 4096⟩)) (some (sampleSeal.take 12)) ∧
      ∀ fuel, oseamaInfo 32 fuel (-1) (List.replicate bufSize 0) (List.replicate bufSize 0)
        (some (sampleSeal.take 12)) = .error .bounds := by
  have heq : oseamaExtract 32 0 (some (some ⟨4096, 4096⟩)) (some (sampleSeal.take 12)) =
      .ok (some [], 0) := by rfl
  refine ⟨heq, ?_, ?_⟩
  · rintro ⟨out, st, hout, hreport⟩
    cases heq.symm.trans hout
    obtain ⟨file, e, hfile, -, he, -⟩ := hreport rfl
    cases hfile
    have hnone : entity (sampleSeal.take 12) 0 = none := by decide
    cases hnone.symm.trans he
  -- the seal has no meta data, so the terminator is written in front of the buffer
  · intro fuel
    have haccepted : ¬sealRefused (sampleSeal.take 12) := by
      rw [sealRefused]
      decide
    have hempty : beField 2 (readAt (sampleSeal.take 12) 0 sizeofSealHdr) 6 = 0 := by decide
    rw [oseamaInfo_accepted 32 fuel (-1) _ _ haccepted, sealLines]
    simp only [hempty, printMeta_empty]
    rfl

end HandsomeMod.Native.Oseama
