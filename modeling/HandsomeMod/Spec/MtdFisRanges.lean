import HandsomeMod.ForStd.Tiling
import HandsomeMod.Spec.MtdFisRemap

/-!
# The flash ranges of remapped partitions

`fis_remap` gives the new partitions the flash from the base of the first or of the last replaced
descriptor on. Their ranges are apart from all others exactly if no replaced partition lies lower,
and what was asked for fits in front of the next remaining partition.
-/

namespace HandsomeMod.Native.MtdFis

open ForStd

variable {b b' : List Desc} {old new : List Part} {ds before span after : List Desc}

/-! ### Ranges in the flash -/

def Desc.lo (d : Desc) : Nat := d.flashBase.toNat

def Desc.len (d : Desc) : Nat := d.size.toNat

/-- The partition contains the byte of the flash at `x`. -/
def Desc.Covers (d : Desc) (x : Nat) : Prop := d.lo ≤ x ∧ x < d.lo + d.len

/-- Two partitions have no byte in common. -/
def Desc.Apart (d d' : Desc) : Prop := ∀ x, ¬(d.Covers x ∧ d'.Covers x)

/-- A partition in front of another one is apart from it. -/
theorem Desc.apart_of_le {d d' : Desc} (h : d.lo + d.len ≤ d'.lo) : d.Apart d' := by
  rintro x ⟨hx, hx'⟩
  exact absurd (Nat.lt_of_lt_of_le hx.2 (h.trans hx'.1)) (Nat.lt_irrefl x)

/-- The lowest base of the partitions with a name of the list. -/
structure IsLowest (old : List Part) (ds : List Desc) (lo : UInt32) : Prop where
  mem : ∃ d ∈ ds, isNamed old d = true ∧ d.flashBase = lo
  le : ∀ d ∈ ds, isNamed old d = true → lo ≤ d.flashBase

/-- The size of the last partition is to be found. -/
def automatic (new : List Part) : Prop := ∃ p ∈ new.getLast?, p.size = 0

/-- The new partitions in the table: they come one after the other from the lowest base on, are
    apart from each other and from those that remain, and the one without a size reaches up to one
    that remains. -/
structure RangesKept (old : List Part) (ds : List Desc) (auto : Prop) (news : List Desc) : Prop where
  ranges : ∃ lo stop, IsLowest old ds lo ∧ stop ≤ 2 ^ 32 ∧
    Tiles Desc.lo Desc.len lo.toNat news stop ∧
    (auto → ∃ r ∈ ds, isNamed old r = false ∧ r.lo = stop)
  apart : news.Pairwise Desc.Apart
  remaining : ∀ d ∈ news, ∀ r ∈ ds, isNamed old r = false → d.Apart r

/-! ### Where the replaced descriptors are -/

/-- Nothing behind the last named descriptor belongs to the span. -/
theorem Span.eq_nil_of_append {s t a a' : List Desc} (h : Span old ds before s a)
    (h' : ∃ l d, s ++ t = l ++ [d] ∧ isNamed old d = true) (ha : a = t ++ a') : t = [] := by
  obtain ⟨l, d, hl, hd⟩ := h'
  obtain hnil | ⟨t', e, ht⟩ := List.eq_nil_or_concat t
  · exact hnil
  · rw [ht, List.concat_eq_append, ← List.append_assoc] at hl
    have heq := List.singleton_inj.mp (List.append_inj' hl rfl).2
    have hmem : d ∈ a := by
      rw [ha, ht, ← heq]
      simp
    rw [h.after d hmem] at hd
    cases hd

/-- There is one span. -/
theorem Span.unique {before' span' after' : List Desc} (h : Span old ds before span after)
    (h' : Span old ds before' span' after') : before = before' ∧ span = span' ∧ after = after' := by
  have hbefore : before = before' := h.takeWhile_eq.symm.trans h'.takeWhile_eq
  have htail : span ++ after = span' ++ after' := h.dropWhile_eq.symm.trans h'.dropWhile_eq
  obtain ⟨t, hs, ha⟩ | ⟨t, hs, ha⟩ := List.append_eq_append_iff.mp htail
  · have hnil := h.eq_nil_of_append (hs ▸ h'.last) ha
    rw [hnil, List.append_nil] at hs
    rw [hnil, List.nil_append] at ha
    exact ⟨hbefore, hs.symm, ha⟩
  · have hnil := h'.eq_nil_of_append (hs ▸ h.last) ha
    rw [hnil, List.append_nil] at hs
    rw [hnil, List.nil_append] at ha
    exact ⟨hbefore, hs, ha.symm⟩

/-! ### The space that the loops find -/

/-- The least base behind `hi`, or `hi` if there is none. -/
def IsNext (ds : List Desc) (hi next : UInt32) : Prop :=
  (next = hi ∧ ∀ d ∈ ds, d.flashBase ≤ hi) ∨
    (hi < next ∧ (∃ d ∈ ds, d.flashBase = next) ∧ ∀ d ∈ ds, hi < d.flashBase → next ≤ d.flashBase)

/-- The first loop finds the highest base. -/
private theorem scan_offset (old : List Part) (ds : List Desc) :
    (∀ d ∈ ds, d.flashBase ≤ (scan old ds).offset) ∧
      (ds ≠ [] → ∃ d ∈ ds, d.flashBase = (scan old ds).offset) := by
  -- the scan is a left fold, so the induction appends at the end
  induction ds using List.reverseRecOn with
  | nil => exact ⟨fun d hd => (by cases hd), fun h => absurd rfl h⟩
  | append_singleton ds d ih =>
    have hstep : (scan old (ds ++ [d])).offset =
        if (scan old ds).offset < d.flashBase then d.flashBase else (scan old ds).offset := by
      have hscan : scan old (ds ++ [d]) = scanStep old (scan old ds) (d, ds.length) := by
        simp [scan, List.zipIdx_append]
      rw [hscan, scanStep]
      split <;> rfl
    rw [hstep]
    simp only [List.forall_mem_append, List.forall_mem_singleton]
    split
    case isTrue hlt =>
      refine ⟨⟨fun d' hd' => ?_, UInt32.le_refl _⟩, fun _ => ⟨d, by simp, rfl⟩⟩
      exact UInt32.le_trans (ih.1 d' hd') (UInt32.le_of_lt hlt)
    case isFalse hge =>
      refine ⟨⟨ih.1, UInt32.not_lt.mp hge⟩, fun _ => ?_⟩
      -- `offset` starts at 0, which is a base only when the first one is 0
      by_cases hnil : ds = []
      · refine ⟨d, by simp, ?_⟩
        subst hnil
        have hzero : (scan old []).offset = 0 := rfl
        rw [hzero] at hge ⊢
        exact UInt32.le_antisymm (UInt32.not_lt.mp hge) (UInt32.zero_le)
      · obtain ⟨d', hd', heq⟩ := ih.2 hnil
        exact ⟨d', List.mem_append_left _ hd', heq⟩

/-- The end of the space is not behind the offset, and not behind a base above `hi`. -/
private theorem spaceEnd_le (ds : List Desc) (hi offset : UInt32) :
    spaceEnd ds hi offset ≤ offset ∧
      (∀ d ∈ ds, hi < d.flashBase → spaceEnd ds hi offset ≤ d.flashBase) ∧
      (spaceEnd ds hi offset = offset ∨
        hi < spaceEnd ds hi offset ∧ ∃ d ∈ ds, d.flashBase = spaceEnd ds hi offset) := by
  -- the loop lowers `offset` to each base above the partition that is smaller
  induction ds generalizing offset with
  | nil => exact ⟨UInt32.le_refl _, fun d hd => (by cases hd), .inl rfl⟩
  | cons d ds ih =>
    have hcons : spaceEnd (d :: ds) hi offset =
        spaceEnd ds hi (if d.flashBase > hi ∧ d.flashBase < offset then d.flashBase else offset) := rfl
    rw [hcons]
    split
    case isTrue hlt =>
      obtain ⟨hle, hall, heq⟩ := ih d.flashBase
      refine ⟨UInt32.le_trans hle (UInt32.le_of_lt hlt.2), ?_, .inr ?_⟩
      · exact List.forall_mem_cons.mpr ⟨fun _ => hle, hall⟩
      · obtain heq | ⟨hhi, d', hd', heq⟩ := heq
        · rw [heq]
          exact ⟨hlt.1, d, List.mem_cons_self, rfl⟩
        · exact ⟨hhi, d', List.mem_cons_of_mem d hd', heq⟩
    case isFalse hnot =>
      obtain ⟨hle, hall, heq⟩ := ih offset
      refine ⟨hle, ?_, ?_⟩
      · refine List.forall_mem_cons.mpr ⟨fun hhi => ?_, hall⟩
        exact UInt32.le_trans hle (UInt32.not_lt.mp fun hlt => hnot ⟨hhi, hlt⟩)
      · obtain heq | ⟨hhi, d', hd', heq⟩ := heq
        · exact .inl heq
        · exact .inr ⟨hhi, d', List.mem_cons_of_mem d hd', heq⟩

/-- The second loop finds the next base. -/
private theorem isNext_spaceEnd {hi offset : UInt32} (hhi : ∃ d ∈ ds, d.flashBase = hi)
    (hmax : ∀ d ∈ ds, d.flashBase ≤ offset) (hmem : ∃ d ∈ ds, d.flashBase = offset) :
    IsNext ds hi (spaceEnd ds hi offset) := by
  obtain ⟨hle, hall, heq⟩ := spaceEnd_le ds hi offset
  -- the space ends at the next base, or at the offset behind all of them
  by_cases hlt : hi < offset
  · obtain heq | ⟨hgt, hmem'⟩ := heq
    · rw [heq] at hall ⊢
      exact .inr ⟨hlt, hmem, hall⟩
    · exact .inr ⟨hgt, hmem', hall⟩
  · -- no base is higher
    obtain ⟨d, hd, rfl⟩ := hhi
    have hoffset : offset = d.flashBase :=
      UInt32.le_antisymm (UInt32.not_lt.mp hlt) (hmax d hd)
    subst hoffset
    obtain heq | ⟨hgt, -⟩ := heq
    · exact .inl ⟨heq, hmax⟩
    · exact absurd (UInt32.lt_of_lt_of_le hgt hle) (UInt32.lt_irrefl _)

/-- There is one next base. -/
theorem IsNext.unique {hi next next' : UInt32} (h : IsNext ds hi next) (h' : IsNext ds hi next') :
    next = next' := by
  obtain ⟨rfl, hall⟩ | ⟨hlt, ⟨d, hd, rfl⟩, hall⟩ := h
  · obtain ⟨rfl, -⟩ | ⟨hlt', ⟨d', hd', rfl⟩, -⟩ := h'
    · rfl
    · exact absurd (hall d' hd') (UInt32.not_le.mpr hlt')
  · obtain ⟨rfl, hall'⟩ | ⟨hlt', ⟨d', hd', rfl⟩, hall'⟩ := h'
    · exact absurd (hall' d hd) (UInt32.not_le.mpr hlt)
    · exact UInt32.le_antisymm (hall d' hd' hlt') (hall' d hd hlt)

/-- The next base is not in front. -/
theorem IsNext.le {hi next : UInt32} (h : IsNext ds hi next) : hi ≤ next := by
  obtain ⟨rfl, -⟩ | ⟨hlt, -⟩ := h
  · exact UInt32.le_refl _
  · exact UInt32.le_of_lt hlt

/-- The lower base of two partitions, and the higher one. -/
def lowBase (first last : Desc) : UInt32 :=
  if first.flashBase > last.flashBase then last.flashBase else first.flashBase

def highBase (first last : Desc) : UInt32 :=
  if first.flashBase > last.flashBase then first.flashBase else last.flashBase

/-- The lower of two bases. -/
theorem lowBase_le_highBase (first last : Desc) : lowBase first last ≤ highBase first last := by
  rw [lowBase, highBase]
  split
  case isTrue hlt => exact UInt32.le_of_lt hlt
  case isFalse hge => exact UInt32.not_lt.mp hge

/-- The place of the new partitions, by the first and the last replaced descriptor. -/
theorem Span.place_eq {first last : Desc} (h : Span old (used b) before span after)
    (hfirst : span.head? = some first) (hlast : span.getLast? = some last) :
    ∃ next, IsNext (used b) (highBase first last) next ∧
      place b old = some
        ⟨before.length, before.length + (span.length - 1), lowBase first last,
          next - lowBase first last⟩ := by
  obtain ⟨hmax, hmem⟩ := scan_offset old (used b)
  have hscan := scanned old (used b)
  have hfirstMem := List.mem_of_mem_head? hfirst
  have hlastMem := List.mem_of_getLast? hlast
  have hsub : ∀ d ∈ span, d ∈ used b := fun d hd => by
    rw [h.eq]
    simp [hd]
  have hne : used b ≠ [] := List.ne_nil_of_mem (hsub first hfirstMem)
  rw [place]
  generalize scan old (used b) = s at hscan hmax hmem
  cases hscan with
  | none offset hnone =>
    obtain ⟨d, l, hcons, hd⟩ := h.head
    rw [hnone d (hsub d (hcons ▸ List.mem_cons_self))] at hd
    cases hd
  | some offset before' span' after' hspan n hn =>
    obtain ⟨rfl, rfl, rfl⟩ := h.unique hspan
    have hb : b = before ++ (span ++ (after ++ b.dropWhile fun d => !d.isFree)) := by
      conv_lhs => rw [← used_append b, h.eq]
      simp only [List.append_assoc]
    -- the indices that the scan keeps point to the ends of the span
    have hget : ∀ i < span.length, b[before.length + i]? = span[i]? := by
      intro i hi
      conv_lhs => rw [hb]
      rw [List.getElem?_append_right (Nat.le_add_right _ _), Nat.add_sub_cancel_left,
        List.getElem?_append_left hi]
    have hfirst' : b[before.length]? = some first := by
      rw [← Nat.add_zero before.length, hget 0 (by omega), ← List.head?_eq_getElem?, hfirst]
    have hlast' : b[before.length + n]? = some last := by
      rw [hget n (by omega), ← hlast, List.getLast?_eq_getElem?, hn, Nat.add_sub_cancel]
    -- the higher end of the span is the base of a used descriptor
    have hhigh : ∃ d ∈ used b, d.flashBase = highBase first last := by
      rw [highBase]
      split
      · exact ⟨first, hsub first hfirstMem, rfl⟩
      · exact ⟨last, hsub last hlastMem, rfl⟩
    refine ⟨_, isNext_spaceEnd hhigh hmax (hmem hne), ?_⟩
    simp only [hfirst', hlast', Option.bind_eq_bind, Option.bind_some, hn, Nat.add_sub_cancel,
      lowBase, highBase, decide_eq_true_eq]
    split <;> rfl

/-! ### The ranges of the new partitions -/

/-- The flash that the sizes of the partitions ask for. -/
def given (parts : List Part) : Nat := (parts.map fun p => p.size.toNat).sum

/-- A partition with a size gets it. -/
private theorem newDesc_of_pos {p : Part} (hp : 0 < p.size) (base size : UInt32) :
    (newDesc p base size).size = p.size := if_pos hp

/-- Two differences in 32 bits. -/
private theorem uint32_sub_sub (a b c : UInt32) : a - b - c = a - (b + c) := by
  rw [UInt32.sub_eq_iff_eq_add, UInt32.sub_eq_iff_eq_add, UInt32.add_assoc, UInt32.add_comm c b,
    UInt32.sub_add_cancel]

/-- The second part of the partitions is placed behind the first. -/
private theorem newDescs_append {parts : List Part} (hparts : ∀ p ∈ parts, 0 < p.size)
    (parts' : List Part) (base size : UInt32) :
    newDescs base size (parts ++ parts') = newDescs base size parts ++
      newDescs (base + UInt32.ofNat (given parts)) (size - UInt32.ofNat (given parts)) parts' := by
  induction parts generalizing base size with
  | nil =>
    have hzero : UInt32.ofNat (given []) = 0 := rfl
    rw [hzero, UInt32.add_zero, UInt32.sub_zero]
    rfl
  | cons p parts ih =>
    obtain ⟨hp, hps⟩ := List.forall_mem_cons.mp hparts
    -- what is given to the first part comes off the size
    have hgiven : UInt32.ofNat (given (p :: parts)) = p.size + UInt32.ofNat (given parts) := by
      rw [given, List.map_cons, List.sum_cons, UInt32.ofNat_add, UInt32.ofNat_toNat]
      rfl
    rw [List.cons_append, newDescs, newDescs, ih hps, newDesc_of_pos hp, hgiven, UInt32.add_assoc,
      uint32_sub_sub]
    rfl

/-- Partitions with sizes tile the flash, as long as it is large enough. -/
private theorem tiles_newDescs_iff {parts : List Part} (hparts : ∀ p ∈ parts, 0 < p.size)
    (base size : UInt32) (stop : Nat) :
    Tiles Desc.lo Desc.len base.toNat (newDescs base size parts) stop ∧ stop ≤ 2 ^ 32 ↔
      stop = base.toNat + given parts ∧ stop ≤ 2 ^ 32 := by
  -- induction on the partitions; `base` moves on by each size, modulo the word
  induction parts generalizing base size with
  | nil =>
    rw [newDescs, Tiles]
    exact and_congr_left fun _ => eq_comm
  | cons p parts ih =>
    obtain ⟨hp, hps⟩ := List.forall_mem_cons.mp hparts
    have hsize := newDesc_of_pos hp base size
    have hlo : (newDesc p base size).lo = base.toNat := rfl
    have hlen : (newDesc p base size).len = p.size.toNat := congrArg UInt32.toNat hsize
    have hgiven : given (p :: parts) = p.size.toNat + given parts := by
      rw [given, List.map_cons, List.sum_cons, given]
    have hsum := UInt32.toNat_add base p.size
    rw [newDescs, Tiles, hlo, hlen, hsize, hgiven, and_iff_right rfl, ← Nat.add_assoc]
    by_cases hlt : base.toNat + p.size.toNat < 2 ^ 32
    -- no wrap yet
    · rw [Nat.mod_eq_of_lt hlt] at hsum
      rw [← hsum]
      exact ih hps _ _
    · -- the next partition would begin behind the last byte
      cases parts with
      | nil =>
        rw [newDescs, Tiles]
        exact and_congr_left fun _ => eq_comm
      | cons q parts =>
        have hq : 0 < q.size.toNat := UInt32.lt_iff_toNat_lt.mp (hps q List.mem_cons_self)
        have hgiven' : given (q :: parts) = q.size.toNat + given parts := by
          rw [given, List.map_cons, List.sum_cons, given]
        rw [newDescs, Tiles, hgiven']
        constructor
        · rintro ⟨⟨hnext, -⟩, -⟩
          have hbound : (newDesc q (base + p.size) (size - p.size)).lo < 2 ^ 32 :=
            UInt32.toNat_lt _
          omega
        · rintro ⟨hstop, hle⟩
          omega

/-- The partition without a size gets what is left, if that much was asked for. -/
private theorem tiles_automatic_iff {parts : List Part} {p : Part}
    (hparts : ∀ p ∈ parts, 0 < p.size)
    (hp : p.size = 0) {lo next : UInt32} (hle : lo ≤ next) (stop : Nat) :
    Tiles Desc.lo Desc.len lo.toNat (newDescs lo (next - lo) (parts ++ [p])) stop ∧ stop < 2 ^ 32 ↔
      stop = next.toNat ∧ lo.toNat + given parts ≤ next.toNat := by
  have hspace : (next - lo).toNat = next.toNat - lo.toNat := UInt32.toNat_sub_of_le _ _ hle
  have hle' : lo.toNat ≤ next.toNat := UInt32.le_iff_toNat_le.mp hle
  have hnext := next.toNat_lt
  have hlast : ∀ base size : UInt32, newDescs base size [p] = [newDesc p base size] := fun _ _ => rfl
  have hlen : ∀ base size : UInt32, (newDesc p base size).len = size.toNat := fun base size => by
    have hnot : ¬p.size > 0 := by
      rw [hp]
      exact UInt32.lt_irrefl 0
    exact congrArg UInt32.toNat (if_neg hnot)
  have hlo : ∀ base size : UInt32, (newDesc p base size).lo = base.toNat := fun _ _ => rfl
  -- the given sizes are laid out first, the last partition takes what is left of `next - lo`
  rw [newDescs_append hparts, tiles_append, hlast]
  simp only [tiles_singleton, hlo, hlen]
  have hbase := UInt32.toNat_add lo (UInt32.ofNat (given parts))
  have hsize := UInt32.toNat_sub (next - lo) (UInt32.ofNat (given parts))
  rw [UInt32.toNat_ofNat'] at hbase hsize
  have htiles := tiles_newDescs_iff hparts lo (next - lo)
  constructor
  -- from the layout to the sum: a wrapped remainder would end behind the word
  · rintro ⟨⟨mid, hmid, hmid', hstop⟩, hlt⟩
    obtain ⟨hmid'', -⟩ := (htiles mid).mp ⟨hmid, by omega⟩
    omega
  · rintro ⟨rfl, hfits⟩
    refine ⟨⟨lo.toNat + given parts, ((htiles _).mpr ⟨rfl, by omega⟩).1, ?_, ?_⟩, hnext⟩
    · omega
    · omega

/-! ### Room in the flash -/

/-- No partition that remains has a byte between the bounds. -/
def Free (old : List Part) (ds : List Desc) (lo stop : Nat) : Prop :=
  ∀ r ∈ ds, isNamed old r = false → ∀ x, lo ≤ x → x < stop → ¬r.Covers x

/-- Partitions that tile a space are apart from the others exactly if the space is free. -/
theorem Tiles.free_iff {news : List Desc} {lo stop : Nat} (h : Tiles Desc.lo Desc.len lo news stop) :
    (∀ d ∈ news, ∀ r ∈ ds, isNamed old r = false → d.Apart r) ↔ Free old ds lo stop := by
  constructor
  · intro hapart r hr hnot x hlo hstop hcovers
    obtain ⟨d, hd, hx⟩ := h.contains_iff.mpr ⟨hlo, hstop⟩
    exact hapart d hd r hr hnot x ⟨hx, hcovers⟩
  · rintro hfree d hd r hr hnot x ⟨hx, hcovers⟩
    obtain ⟨hlo, hstop⟩ := h.contains_iff.mp ⟨d, hd, hx⟩
    exact hfree r hr hnot x hlo hstop hcovers

/-- The flash from `lo` on has room for the new partitions: if the last one has no size, up to
    `next`, where one that remains begins. -/
structure FlashFor (old new : List Part) (ds : List Desc) (lo next : UInt32) : Prop where
  lowest : ∀ d ∈ ds, isNamed old d = true → lo ≤ d.flashBase
  auto : automatic new → lo.toNat + given new ≤ next.toNat ∧
    (∃ r ∈ ds, isNamed old r = false ∧ r.flashBase = next) ∧ Free old ds lo.toNat next.toNat
  sized : ¬automatic new →
    lo.toNat + given new ≤ 2 ^ 32 ∧ Free old ds lo.toNat (lo.toNat + given new)

/-- The sizes of a list with one more partition. -/
private theorem given_concat (parts : List Part) (p : Part) :
    given (parts ++ [p]) = given parts + p.size.toNat := by
  rw [given, List.map_append, List.sum_append, List.map_singleton, List.sum_singleton, given]

/-- The stretch of flash that the new partitions take. -/
private theorem tiles_iff (old : List Part) (ds : List Desc) (hnew : new ≠ [])
    (hsizes : ∀ p ∈ new.dropLast, 0 < p.size) {lo next : UInt32} (hle : lo ≤ next) (stop : Nat) :
    Tiles Desc.lo Desc.len lo.toNat (newDescs lo (next - lo) new) stop ∧ stop ≤ 2 ^ 32 ∧
        (automatic new → ∃ r ∈ ds, isNamed old r = false ∧ r.lo = stop) ↔
      (automatic new → stop = next.toNat ∧ lo.toNat + given new ≤ next.toNat ∧
        ∃ r ∈ ds, isNamed old r = false ∧ r.flashBase = next) ∧
      (¬automatic new → stop = lo.toNat + given new ∧ stop ≤ 2 ^ 32) := by
  -- only the last partition may have no size
  obtain ⟨parts, p, rfl⟩ := (List.eq_nil_or_concat new).resolve_left hnew
  rw [List.concat_eq_append] at *
  rw [List.dropLast_concat] at hsizes
  have hauto : automatic (parts ++ [p]) ↔ p.size = 0 := by
    simp [automatic]
  rw [hauto, given_concat]
  by_cases hp : p.size = 0
  · have htiles := tiles_automatic_iff hsizes hp hle stop
    have hzero : p.size.toNat = 0 := congrArg UInt32.toNat hp
    rw [hzero, Nat.add_zero]
    simp only [hp, true_imp_iff, not_true, false_imp_iff, and_true]
    constructor
    · rintro ⟨htile, -, r, hr, hnot, hlo⟩
      have hlt : stop < 2 ^ 32 := hlo ▸ UInt32.toNat_lt _
      obtain ⟨hstop, hfits⟩ := htiles.mp ⟨htile, hlt⟩
      exact ⟨hstop, hfits, r, hr, hnot, UInt32.toNat_inj.mp (hlo.trans hstop)⟩
    · rintro ⟨hstop, hfits, r, hr, hnot, hbase⟩
      obtain ⟨htile, hlt⟩ := htiles.mpr ⟨hstop, hfits⟩
      exact ⟨htile, Nat.le_of_lt hlt, r, hr, hnot, hstop ▸ congrArg UInt32.toNat hbase⟩
  · have hpos : 0 < p.size := UInt32.pos_iff_ne_zero.mpr hp
    have hall : ∀ q ∈ parts ++ [p], 0 < q.size := by
      rw [List.forall_mem_append, List.forall_mem_singleton]
      exact ⟨hsizes, hpos⟩
    have htiles := tiles_newDescs_iff hall lo (next - lo) stop
    rw [given_concat] at htiles
    simp only [hp, false_imp_iff, not_false_eq_true, true_imp_iff, and_true, true_and]
    exact htiles

/-- The ranges are kept exactly if there is room in the flash. -/
theorem rangesKept_iff (hnew : new ≠ []) (hsizes : ∀ p ∈ new.dropLast, 0 < p.size)
    {lo next : UInt32} (hle : lo ≤ next)
    (hlo : ∃ d ∈ ds, isNamed old d = true ∧ d.flashBase = lo) :
    RangesKept old ds (automatic new) (newDescs lo (next - lo) new) ↔
      FlashFor old new ds lo next := by
  have htiles := tiles_iff old ds hnew hsizes hle
  constructor
  · rintro ⟨⟨lo', stop, hlowest, hstop, htile, hauto⟩, -, hremaining⟩
    -- the first new partition begins at the lowest base
    have hlo' : lo' = lo := by
      obtain ⟨p, parts, hcons⟩ := List.exists_cons_of_ne_nil hnew
      rw [hcons, newDescs] at htile
      exact UInt32.toNat_inj.mp htile.1.symm
    rw [hlo'] at hlowest htile
    have hfree := (Tiles.free_iff htile).mp hremaining
    obtain ⟨hyes, hno⟩ := (htiles stop).mp ⟨htile, hstop, hauto⟩
    refine ⟨hlowest.le, fun h => ?_, fun h => ?_⟩
    · obtain ⟨hnext, hfits, hmem⟩ := hyes h
      exact ⟨hfits, hmem, hnext ▸ hfree⟩
    · obtain ⟨hsum, hle32⟩ := hno h
      exact ⟨hsum ▸ hle32, hsum ▸ hfree⟩
  · rintro ⟨hlowest, hyes, hno⟩
    -- the end of the new partitions: the next base, or the sum of the sizes
    obtain ⟨stop, hstop, hfree⟩ : ∃ stop,
        ((automatic new → stop = next.toNat ∧ lo.toNat + given new ≤ next.toNat ∧
            ∃ r ∈ ds, isNamed old r = false ∧ r.flashBase = next) ∧
          (¬automatic new → stop = lo.toNat + given new ∧ stop ≤ 2 ^ 32)) ∧
          Free old ds lo.toNat stop := by
      by_cases hauto : automatic new
      · obtain ⟨hfits, hmem, hfree⟩ := hyes hauto
        exact ⟨next.toNat, ⟨fun _ => ⟨rfl, hfits, hmem⟩, fun h => absurd hauto h⟩, hfree⟩
      · obtain ⟨hle32, hfree⟩ := hno hauto
        exact ⟨_, ⟨fun h => absurd h hauto, fun _ => ⟨rfl, hle32⟩⟩, hfree⟩
    obtain ⟨htile, hle32, hauto⟩ := (htiles stop).mpr hstop
    refine ⟨⟨lo, stop, ⟨hlo, hlowest⟩, hle32, htile, hauto⟩, ?_, (Tiles.free_iff htile).mpr hfree⟩
    exact htile.pairwise.imp Desc.apart_of_le

/-- What a remap needs: as many new descriptors as there are from the first replaced one to the last,
    room for them in the block, and room in the flash from the lower of these two on. -/
structure RemapFits (b : List Desc) (old new : List Part) (before span after : List Desc)
    (first last : Desc) (next : UInt32) : Prop where
  isSpan : Span old (used b) before span after
  head_eq : span.head? = some first
  last_eq : span.getLast? = some last
  descs : span.length ≤ new.length ∧ before.length + new.length ≤ b.length
  isNext : IsNext (used b) (highBase first last) next
  flash : FlashFor old new (used b) (lowBase first last) next

/-- Whatever `fis_validate` accepts, `fis_remap` keeps the ranges of the partitions apart exactly if
    there is room for the new ones. -/
theorem fisRemap_rangesKept_iff (hvalid : fisValidate b old new = 1) :
    (∃ b', fisRemap b old new = some b' ∧
      RangesKept old (used b) (automatic new)
        ((b'.drop ((used b).takeWhile fun d => !isNamed old d).length).take new.length)) ↔
      ∃ before span after first last next, RemapFits b old new before span after first last next := by
  have hsizes : ∀ p ∈ new.dropLast, 0 < p.size := by
    rw [fisValidate] at hvalid
    split at hvalid
    · cases hvalid
    · rename_i hany
      intro p hp
      refine UInt32.pos_iff_ne_zero.mpr fun hzero => hany ?_
      exact List.any_eq_true.mpr ⟨p, hp, by simp [hzero]⟩
  have hplaced := placed b old
  generalize hp : place b old = p at hplaced
  -- without a named descriptor nothing is placed, and there is no span either
  cases hplaced with
  | none hnone =>
    constructor
    · rintro ⟨b', hrun, -⟩
      rw [fisRemap, hp] at hrun
      cases hrun
    · rintro ⟨before, span, after, first, last, next, hfits⟩
      obtain ⟨d, l, hcons, hd⟩ := hfits.isSpan.head
      have hmem : d ∈ used b := by
        rw [hfits.isSpan.eq, hcons]
        simp
      rw [hnone d hmem] at hd
      cases hd
  | some before span after hspan n hn base size =>
    obtain ⟨first, hfirst, hnamed⟩ : ∃ d, span.head? = some d ∧ isNamed old d = true := by
      obtain ⟨d, l, rfl, hd⟩ := hspan.head
      exact ⟨d, rfl, hd⟩
    obtain ⟨last, hlast, hnamed'⟩ : ∃ d, span.getLast? = some d ∧ isNamed old d = true := by
      obtain ⟨l, d, rfl, hd⟩ := hspan.last
      exact ⟨d, List.getLast?_concat, hd⟩
    have hmem : ∀ d ∈ span, d ∈ used b := fun d hd => by
      rw [hspan.eq]
      simp [hd]
    obtain ⟨next, hnext, hplace⟩ := hspan.place_eq hfirst hlast
    rw [hn, Nat.add_sub_cancel, hp] at hplace
    cases hplace
    have hlo : ∃ d ∈ used b, isNamed old d = true ∧ d.flashBase = lowBase first last := by
      rw [lowBase]
      split
      · exact ⟨last, hmem last (List.mem_of_getLast? hlast), hnamed', rfl⟩
      · exact ⟨first, hmem first (List.mem_of_mem_head? hfirst), hnamed, rfl⟩
    have hle := UInt32.le_trans (lowBase_le_highBase first last) hnext.le
    have hlen : (used b).length ≤ b.length := (List.takeWhile_sublist _).length_le
    have hused := congrArg List.length hspan.eq
    rw [List.length_append, List.length_append] at hused
    rw [hspan.takeWhile_eq]
    -- the new descriptors must take at least the places of the old ones, and stay in the table
    by_cases hfit : before.length + n + 1 ≤ before.length + new.length ∧
        before.length + new.length ≤ b.length
    · have hne : new ≠ [] := by
        rintro rfl
        rw [List.length_nil] at hfit
        omega
      have hkept := rangesKept_iff hne hsizes hle hlo
      have hrun := fisRemap_eq hp hfit.1 hfit.2
      have hnews : ((b.take before.length ++
          newDescs (lowBase first last) (next - lowBase first last) new ++
            (b.drop (before.length + n + 1)).take (b.length - (before.length + new.length))).drop
              before.length).take new.length =
          newDescs (lowBase first last) (next - lowBase first last) new := by
        rw [List.append_assoc, List.drop_left' (by rw [List.length_take]; omega),
          List.take_left' (length_newDescs _ _ _)]
      constructor
      · rintro ⟨b', hrun', hkept'⟩
        rw [hrun, Option.some_inj] at hrun'
        rw [← hrun', hnews, hkept] at hkept'
        exact ⟨before, span, after, first, last, next, hspan, hfirst, hlast, by omega, hnext, hkept'⟩
      -- the parts of the table are determined, so they are the ones of the run
      · rintro ⟨before', span', after', first', last', next', hfits⟩
        obtain ⟨rfl, rfl, rfl⟩ := hspan.unique hfits.isSpan
        obtain rfl := Option.some_inj.mp (hfirst.symm.trans hfits.head_eq)
        obtain rfl := Option.some_inj.mp (hlast.symm.trans hfits.last_eq)
        obtain rfl := hnext.unique hfits.isNext
        refine ⟨_, hrun, ?_⟩
        rw [hnews, hkept]
        exact hfits.flash
    · constructor
      · rintro ⟨b', hrun, -⟩
        rw [fisRemap_of_not hp (by simp only; omega) hfit] at hrun
        cases hrun
      · rintro ⟨before', span', after', first', last', next', hfits⟩
        obtain ⟨rfl, rfl, rfl⟩ := hspan.unique hfits.isSpan
        have hdescs := hfits.descs
        omega

/-! ### One partition in place of another -/

/-- A partition without a size. -/
def autoPart (c : UInt8) : Part := ⟨shortName c, 0, 0, 0, 0⟩

/-- A partition of 128 KiB. -/
def largePart (c : UInt8) : Part := ⟨shortName c, 0, 0x20000, 0, 0⟩

/-- The partition `k` is replaced by one without a size. -/
theorem fisRemap_rangesKept_auto :
    (∃ b', fisRemap threeParts [smallPart 107] [autoPart 108] = some b' ∧
      RangesKept [smallPart 107] (used threeParts) (automatic [autoPart 108])
        ((b'.drop ((used threeParts).takeWhile fun d => !isNamed [smallPart 107] d).length).take
          [autoPart 108].length)) ↔
      ∃ before span after first last next,
        RemapFits threeParts [smallPart 107] [autoPart 108] before span after first last next :=
  fisRemap_rangesKept_iff (by decide)

/-- More flash is asked for than `k` had: the size of the last partition wraps. -/
theorem fisRemap_size_wraps :
    (used threeParts).Pairwise Desc.Apart ∧
      fisValidate threeParts [smallPart 107] [largePart 108, autoPart 109] = 1 ∧
      ¬∃ b', fisRemap threeParts [smallPart 107] [largePart 108, autoPart 109] = some b' ∧
        RangesKept [smallPart 107] (used threeParts) (automatic [largePart 108, autoPart 109])
          ((b'.drop ((used threeParts).takeWhile fun d => !isNamed [smallPart 107] d).length).take
            [largePart 108, autoPart 109].length) := by
  have happart : (used threeParts).Pairwise fun d d' => d.lo + d.len ≤ d'.lo := by decide
  refine ⟨happart.imp Desc.apart_of_le, by decide, ?_⟩
  rintro ⟨b', hrun, hkept⟩
  have hplace : place threeParts [smallPart 107] = some ⟨1, 1, 0x50010000, 0x10000⟩ := rfl
  rw [fisRemap_eq hplace (by decide) (by decide), Option.some_inj] at hrun
  have hbefore : ((used threeParts).takeWhile fun d => !isNamed [smallPart 107] d).length = 1 := by
    decide
  have hnews : (b'.drop 1).take [largePart 108, autoPart 109].length =
      newDescs 0x50010000 0x10000 [largePart 108, autoPart 109] := by
    rw [← hrun, List.append_assoc]
    rfl
  rw [hbefore, hnews] at hkept
  -- the first new partition reaches into `r`
  have hthird : (used threeParts)[2]? = some (newDesc (smallPart 114) 0x50020000 0xfffe0000) := rfl
  refine hkept.remaining (newDesc (largePart 108) 0x50010000 0x10000) List.mem_cons_self _
    (List.mem_of_getElem? hthird) (by decide) 0x50020000 ?_
  exact ⟨⟨by decide, by decide⟩, by decide, by decide⟩

end HandsomeMod.Native.MtdFis
