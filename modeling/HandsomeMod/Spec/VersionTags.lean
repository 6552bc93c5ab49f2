import HandsomeMod.Native.PackageMetadata

/-!
# Version tags

`version_to_num` puts the fields of a version into 8 bits each, the first one into what is left of
64, and takes 0 for no version. So versions compare as their fields do as long as these are in
range, and not all null; any other version is confused with one that is in range.
-/

namespace HandsomeMod.Native.PackageMetadata

open ForStd

/-! ### The property -/

/-- A version of two to four numbers. -/
structure Dotted (s : Text) : Prop where
  isVersion : isVersion s = true
  length_le : (s.splitOn 0x2e).length ≤ 4

/-- Its four numbers; those that are missing are null. -/
def padded (s : Text) : List Nat := ((s.splitOn 0x2e).map decimal ++ [0, 0, 0, 0]).take 4

/-- What an operator says about versions. -/
def VersionOp.Rel (v w : List Nat) : VersionOp → Prop
  | lt => v < w
  | le => v < w ∨ v = w
  | gt => w < v
  | ge => w < v ∨ v = w
  | eq => v = w
  | ne => v ≠ w

/-- The numbers of `v` and `w` are ordered as the versions are, and with the version `v`, an item with
    the tag `w` is kept exactly if the operator says so. -/
structure Faithful (v w : Text) : Prop where
  lt_iff : versionToNum (some v) < versionToNum (some w) ↔ padded v < padded w
  gt_iff : versionToNum (some w) < versionToNum (some v) ↔ padded w < padded v
  kept : ∀ item tag, matchTag item = some tag → tag.ver = w →
    (tag.op.Rel (padded v) (padded w) → versionFilterList (some v) [item] = [tag.before ++ tag.behind]) ∧
      (¬tag.op.Rel (padded v) (padded w) → versionFilterList (some v) [item] = [])

/-- The fields fit, and they are not all null. -/
def Ordinary (s : Text) : Prop :=
  ∃ a b c d, padded s = [a, b, c, d] ∧ a < 2 ^ 40 ∧ b < 256 ∧ c < 256 ∧ d < 256 ∧ 0 < a + b + c + d

/-! ### Numbers -/

/-- The number of four fields. -/
def pack (a b c d : Nat) : Nat :=
  (min a (2 ^ 64 - 1) <<< 24) % 2 ^ 64 ||| (min b (2 ^ 64 - 1) <<< 16) % 2 ^ 64 |||
    (min c (2 ^ 64 - 1) <<< 8) % 2 ^ 64 ||| min d (2 ^ 64 - 1)

/-- Bits that do not overlap are added. -/
private theorem or_of_lt {k m : Nat} (n : Nat) (h : m < 2 ^ k) : n * 2 ^ k ||| m = n * 2 ^ k + m
    := by
  rw [← Nat.shiftLeft_eq, Nat.shiftLeft_add_eq_or_of_lt h]

/-- Fields that fit do not overlap. -/
private theorem pack_of_lt {a b c d : Nat} (ha : a < 2 ^ 40) (hb : b < 256) (hc : c < 256)
    (hd : d < 256) :
    pack a b c d = a * 2 ^ 24 + b * 2 ^ 16 + c * 2 ^ 8 + d := by
  have hmin : ∀ n, n < 2 ^ 40 → min n (2 ^ 64 - 1) = n := fun n hn => by omega
  have hshift : ∀ n k, n * 2 ^ k < 2 ^ 64 → (n <<< k) % 2 ^ 64 = n * 2 ^ k := fun n k hn => by
    rw [Nat.shiftLeft_eq, Nat.mod_eq_of_lt hn]
  rw [pack, hmin a ha, hmin b (by omega), hmin c (by omega), hmin d (by omega),
    hshift a 24 (by omega), hshift b 16 (by omega), hshift c 8 (by omega)]
  -- the fields do not overlap, so the bits are added
  have hab : a * 2 ^ 24 ||| b * 2 ^ 16 = (a * 2 ^ 8 + b) * 2 ^ 16 := by
    rw [or_of_lt a (by omega)]
    omega
  have habc : (a * 2 ^ 8 + b) * 2 ^ 16 ||| c * 2 ^ 8 = ((a * 2 ^ 8 + b) * 2 ^ 8 + c) * 2 ^ 8 := by
    rw [or_of_lt _ (by omega)]
    omega
  rw [hab, habc, or_of_lt _ hd]
  omega

/-- A number has 64 bits. -/
theorem pack_lt (a b c d : Nat) : pack a b c d < 2 ^ 64 := by
  have hd : min d (2 ^ 64 - 1) < 2 ^ 64 := by omega
  exact Nat.or_lt_two_pow (Nat.or_lt_two_pow (Nat.or_lt_two_pow (Nat.mod_lt _ (by decide))
    (Nat.mod_lt _ (by decide))) (Nat.mod_lt _ (by decide))) hd

/-- Four fields are compared one after the other. -/
private theorem four_lt_iff {a b c d a' b' c' d' : Nat} : [a, b, c, d] < [a', b', c', d'] ↔
    a < a' ∨ a = a' ∧ (b < b' ∨ b = b' ∧ (c < c' ∨ c = c' ∧ d < d')) := by
  simp [List.cons_lt_cons_iff]

/-- A version is padded to four fields. -/
theorem exists_padded (s : Text) : ∃ a b c d, padded s = [a, b, c, d] := by
  have hlen : (padded s).length = 4 := by
    rw [padded, List.length_take, List.length_append]
    simp
  match hpad : padded s, hlen with
  | [a, b, c, d], _ => exact ⟨a, b, c, d, rfl⟩

/-- The fields of a dotted version are numbers. -/
theorem Dotted.field {s : Text} (h : Dotted s) {f : Text} (hf : f ∈ s.splitOn 0x2e) :
    f ≠ [] ∧ ∀ c ∈ f, isDigit c = true := by
  have hall := h.isVersion
  simp only [PackageMetadata.isVersion, Bool.and_eq_true, List.all_eq_true, decide_eq_true_eq] at hall
  exact hall.2 f hf

/-- A version does not end with a newline. -/
theorem Dotted.getLast?_ne {s : Text} (h : Dotted s) : s.getLast? ≠ some 10 := by
  intro hlast
  obtain ⟨f, hf, hmem⟩ :=
    mem_splitOn_of_mem (a := 0x2e) (List.mem_of_getLast? hlast) (by decide)
  exact absurd ((h.field hf).2 10 hmem) (by decide)

/-- The number of a version is that of its four fields. -/
theorem versionToNum_of_dotted {s : Text} (h : Dotted s) {a b c d : Nat} (hpad : padded s = [a, b, c, d]) :
    versionToNum (some s) = pack a b c d := by
  have hget (i : Nat) (hi : i < 4) : ((s.splitOn 0x2e).map uvOf ++ [0, 0, 0, 0]).getD i 0 =
      min ((padded s).getD i 0) (2 ^ 64 - 1) := by
    -- `strtoul` caps each field
    have hcap : (s.splitOn 0x2e).map uvOf ++ [0, 0, 0, 0] =
        ((s.splitOn 0x2e).map decimal ++ [0, 0, 0, 0]).map fun n => min n (2 ^ 64 - 1) := by
      rw [List.map_append, List.map_map]
      rfl
    rw [hcap, padded, List.getD_eq_getElem?_getD, List.getD_eq_getElem?_getD, List.getElem?_map,
      List.getElem?_take_of_lt hi]
    cases ((s.splitOn 0x2e).map decimal ++ [0, 0, 0, 0])[i]? with
    | none => exact (Nat.zero_min _).symm
    | some n => rfl
  simp only [versionToNum, if_neg h.getLast?_ne, if_pos h.isVersion]
  rw [hget 0 (by decide), hget 1 (by decide), hget 2 (by decide), hget 3 (by decide), hpad]
  rfl

/-! ### From a number to a version -/

/-- A version with four fields. -/
def dottedText (a b c d : Nat) : Text := [0x2e].intercalate [decText a, decText b, decText c, decText d]

/-- A version is split at its dots. -/
private theorem splitOn_dottedText (a b c d : Nat) :
    (dottedText a b c d).splitOn 0x2e = [decText a, decText b, decText c, decText d] := by
  apply List.splitOn_intercalate
  · intro l hl hmem
    have hdec : ∃ n, l = decText n := by
      simp only [List.mem_cons, List.not_mem_nil, or_false] at hl
      rcases hl with rfl | rfl | rfl | rfl <;> exact ⟨_, rfl⟩
    obtain ⟨n, rfl⟩ := hdec
    exact absurd ((decText_spec n).2.1 _ hmem) (by decide)
  · exact List.cons_ne_nil _ _

/-- Numbers with dots are a dotted version. -/
private theorem dotted_dottedText (a b c d : Nat) : Dotted (dottedText a b c d) := by
  constructor
  · simp [PackageMetadata.isVersion, splitOn_dottedText, (decText_spec _).1]
    exact ⟨(decText_spec a).2.1, (decText_spec b).2.1, (decText_spec c).2.1, (decText_spec d).2.1⟩
  · rw [splitOn_dottedText]
    exact Nat.le_refl 4

/-- Four numbers are not padded. -/
private theorem padded_dottedText (a b c d : Nat) : padded (dottedText a b c d) = [a, b, c, d] := by
  rw [padded, splitOn_dottedText]
  simp [(decText_spec _).2.2]

/-- Every number but zero is that of a version in range. -/
theorem exists_ordinary {n : Nat} (hpos : 0 < n) (hlt : n < 2 ^ 64) :
    ∃ w, Dotted w ∧ Ordinary w ∧ versionToNum (some w) = n := by
  have hfields : n = n / 2 ^ 24 * 2 ^ 24 + n / 2 ^ 16 % 256 * 2 ^ 16 + n / 2 ^ 8 % 256 * 2 ^ 8 + n % 256 := by
    omega
  have ha : n / 2 ^ 24 < 2 ^ 40 := by omega
  have hb : n / 2 ^ 16 % 256 < 256 := Nat.mod_lt _ (by decide)
  have hc : n / 2 ^ 8 % 256 < 256 := Nat.mod_lt _ (by decide)
  have hd : n % 256 < 256 := Nat.mod_lt _ (by decide)
  have hdot := dotted_dottedText (n / 2 ^ 24) (n / 2 ^ 16 % 256) (n / 2 ^ 8 % 256) (n % 256)
  have hpad := padded_dottedText (n / 2 ^ 24) (n / 2 ^ 16 % 256) (n / 2 ^ 8 % 256) (n % 256)
  refine ⟨_, hdot, ⟨_, _, _, _, hpad, ha, hb, hc, hd, by omega⟩, ?_⟩
  rw [versionToNum_of_dotted hdot hpad, pack_of_lt ha hb hc hd]
  exact hfields.symm

/-! ### Versions in range -/

/-- In range, numbers are compared as versions. -/
private theorem lt_iff_of_ordinary {v w : Text} (hv : Dotted v) (hw : Dotted w) (hov : Ordinary v)
    (how : Ordinary w) : versionToNum (some v) < versionToNum (some w) ↔ padded v < padded w := by
  obtain ⟨a, b, c, d, hpad, ha, hb, hc, hd, -⟩ := hov
  obtain ⟨a', b', c', d', hpad', ha', hb', hc', hd', -⟩ := how
  rw [versionToNum_of_dotted hv hpad, versionToNum_of_dotted hw hpad', hpad, hpad', four_lt_iff,
    pack_of_lt ha hb hc hd, pack_of_lt ha' hb' hc' hd']
  omega

/-- Ordinary versions are equal as numbers exactly if their fields are. -/
private theorem eq_iff_of_ordinary {v w : Text} (hv : Dotted v) (hw : Dotted w) (hov : Ordinary v)
    (how : Ordinary w) : versionToNum (some v) = versionToNum (some w) ↔ padded v = padded w := by
  obtain ⟨a, b, c, d, hpad, ha, hb, hc, hd, -⟩ := hov
  obtain ⟨a', b', c', d', hpad', ha', hb', hc', hd', -⟩ := how
  rw [versionToNum_of_dotted hv hpad, versionToNum_of_dotted hw hpad', hpad, hpad',
    pack_of_lt ha hb hc hd, pack_of_lt ha' hb' hc' hd']
  simp only [List.cons.injEq, and_true]
  omega

/-- The number of a version in range is not the one of no version. -/
private theorem pos_of_ordinary {v : Text} (hv : Dotted v) (hov : Ordinary v) :
    0 < versionToNum (some v) := by
  obtain ⟨a, b, c, d, hpad, ha, hb, hc, hd, hsum⟩ := hov
  rw [versionToNum_of_dotted hv hpad, pack_of_lt ha hb hc hd]
  omega

/-- An operator compares the numbers as it compares the versions. -/
private theorem holds_iff_of_ordinary {v w : Text} (hv : Dotted v) (hw : Dotted w)
    (hov : Ordinary v)
    (how : Ordinary w) (op : VersionOp) :
    op.holds (versionToNum (some v)) (versionToNum (some w)) = true ↔ op.Rel (padded v) (padded w) := by
  have hlt := lt_iff_of_ordinary hv hw hov how
  have hgt := lt_iff_of_ordinary hw hv how hov
  have heq := eq_iff_of_ordinary hv hw hov how
  -- each comparison follows from less and equal
  cases op with
  | lt => rw [VersionOp.holds, decide_eq_true_eq, hlt, VersionOp.Rel]
  | le => rw [VersionOp.holds, decide_eq_true_eq, Nat.le_iff_lt_or_eq, hlt, heq, VersionOp.Rel]
  | gt => rw [VersionOp.holds, decide_eq_true_eq, gt_iff_lt, hgt, VersionOp.Rel]
  | ge =>
    rw [VersionOp.holds, decide_eq_true_eq, ge_iff_le, Nat.le_iff_lt_or_eq, hgt,
      eq_comm (a := versionToNum (some w)), heq, VersionOp.Rel]
  | eq => rw [VersionOp.holds, decide_eq_true_eq, heq, VersionOp.Rel]
  | ne => rw [VersionOp.holds, decide_eq_true_eq, ne_eq, heq, VersionOp.Rel]

/-- Ordinary versions are compared field by field. -/
theorem faithful_of_ordinary {v w : Text} (hv : Dotted v) (hw : Dotted w) (hov : Ordinary v)
    (how : Ordinary w) : Faithful v w where
  lt_iff := lt_iff_of_ordinary hv hw hov how
  gt_iff := lt_iff_of_ordinary hw hv how hov
  kept := by
    intro item tag hmatch hver
    subst hver
    have hholds := holds_iff_of_ordinary hv hw hov how tag.op
    have hpos := pos_of_ordinary hv hov
    have hpos' := pos_of_ordinary hw how
    constructor
    · intro hrel
      -- the relation holds, so the tag is taken out and the item stays
      have hkeep : filterItem (versionToNum (some v)) item = some (tag.before ++ tag.behind) := by
        simp only [filterItem, hmatch, hholds.mpr hrel, not_true_eq_false, and_false, if_false]
      rw [versionFilterList, List.filterMap_cons_some hkeep, List.filterMap_nil]
    · intro hrel
      -- both numbers are positive, so the check is made
      have hdrop : filterItem (versionToNum (some v)) item = none := by
        simp only [filterItem, hmatch, if_pos (⟨hpos', hpos, mt hholds.mp hrel⟩ : _ ∧ _ ∧ _)]
      rw [versionFilterList, List.filterMap_cons_none hdrop, List.filterMap_nil]

/-- A version is compared rightly with all that are in range exactly if it is in range itself. -/
theorem faithful_iff_ordinary (v : Text) (hv : Dotted v) :
    (∀ w, Dotted w → Ordinary w → Faithful v w ∧ Faithful w v) ↔ Ordinary v := by
  constructor
  · intro hall
    rcases Nat.eq_zero_or_pos (versionToNum (some v)) with hzero | hpos
    · -- The version counts as none, so an item is kept whatever its tag says.
      have hone : Dotted (ascii "1.0") := ⟨by decide, by decide⟩
      have hpad : padded (ascii "1.0") = [1, 0, 0, 0] := by decide
      have hord : Ordinary (ascii "1.0") := ⟨1, 0, 0, 0, hpad, by decide⟩
      -- unless it is 1.0 itself, the tag `@eq1.0` tells it apart
      by_cases hv1 : padded v = [1, 0, 0, 0]
      · exact ⟨1, 0, 0, 0, hv1, by decide⟩
      · have htag : matchTag (ascii "@eq1.0") = some ⟨[], .eq, ascii "1.0", []⟩ := by decide
        have hdrop := ((hall _ hone hord).1.kept _ _ htag rfl).2 (by rwa [VersionOp.Rel, hpad])
        rw [versionFilterList, hzero] at hdrop
        exact absurd hdrop (by decide)
    · -- The fields that its number has are those of another version, unless they are its own.
      obtain ⟨a, b, c, d, hpad⟩ := exists_padded v
      have hlt : versionToNum (some v) < 2 ^ 64 := by
        rw [versionToNum_of_dotted hv hpad]
        exact pack_lt a b c d
      obtain ⟨w, hw, how, heq⟩ := exists_ordinary hpos hlt
      obtain ⟨hfaith, -⟩ := hall w hw how
      have hnlt := mt hfaith.lt_iff.mpr (by rw [heq]; exact Nat.lt_irrefl _)
      have hngt := mt hfaith.gt_iff.mpr (by rw [heq]; exact Nat.lt_irrefl _)
      -- neither is less than the other
      have hsame : padded v = padded w := by
        rcases lt_trichotomy (padded v) (padded w) with h | h | h
        · exact absurd h hnlt
        · exact h
        · exact absurd h hngt
      obtain ⟨a', b', c', d', hpad', hrange⟩ := how
      exact ⟨a', b', c', d', hsame.trans hpad', hrange⟩
  · intro hov w hw how
    exact ⟨faithful_of_ordinary hv hw hov how, faithful_of_ordinary hw hv how hov⟩

/-- 4.9 and 4.14.1. -/
theorem faithful_iff_ordinary_sample :
    Faithful (ascii "4.9") (ascii "4.14.1") ∧ Faithful (ascii "4.14.1") (ascii "4.9") :=
  (faithful_iff_ordinary (ascii "4.9") ⟨by decide, by decide⟩).mpr ⟨4, 9, 0, 0, by decide, by decide⟩
    (ascii "4.14.1") ⟨by decide, by decide⟩ ⟨4, 14, 1, 0, by decide, by decide⟩

/-- The patch level 256 is lost in a minor version that is odd. -/
theorem patchLevel_not_faithful : ¬∀ v w, Dotted v → Dotted w → Faithful v w := by
  intro hall
  have hfaith := hall (ascii "4.9.256") (ascii "4.9.0") ⟨by decide, by decide⟩ ⟨by decide, by decide⟩
  exact absurd (hfaith.gt_iff.mpr (by decide)) (by decide +kernel)

end HandsomeMod.Native.PackageMetadata
