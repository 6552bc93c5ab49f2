import HandsomeMod.Native.MtdFis

/-!
# Remapping the FIS directory

`fis_remap` replaces the descriptors of the old partitions and keeps all others, for any lists that
`fis_validate` accepts, if the replaced descriptors are adjacent, there are not fewer new ones, and
the block has room for them.
-/

namespace HandsomeMod.Native.MtdFis

open ForStd

variable {b b' : List Desc} {old new : List Part}

/-! ### The descriptors that are replaced -/

/-- The descriptors from the first one with a name of the list to the last one. -/
structure Span (old : List Part) (ds before span after : List Desc) : Prop where
  eq : ds = before ++ span ++ after
  before : ∀ d ∈ before, isNamed old d = false
  after : ∀ d ∈ after, isNamed old d = false
  head : ∃ d l, span = d :: l ∧ isNamed old d
  last : ∃ l d, span = l ++ [d] ∧ isNamed old d

/-- What the first loop finds. -/
inductive Scanned (old : List Part) (ds : List Desc) : Scan → Prop where
  | none (offset : UInt32) (hnone : ∀ d ∈ ds, isNamed old d = false) :
    Scanned old ds ⟨offset, none, none⟩
  | some (offset : UInt32) (before span after : List Desc) (hspan : Span old ds before span after)
    (n : Nat) (hn : span.length = n + 1) :
    Scanned old ds ⟨offset, some before.length, some (before.length + n)⟩

/-- One more descriptor. -/
theorem Scanned.step {ds : List Desc} {s : Scan} (hs : Scanned old ds s) (d : Desc) :
    Scanned old (ds ++ [d]) (scanStep old s (d, ds.length)) := by
  -- a named descriptor opens the span or carries it on to here; another one is behind it so far
  by_cases hd : isNamed old d
  · cases hs with
    | none offset hnone =>
      have hspan : Span old (ds ++ [d]) ds [d] [] :=
        ⟨by simp, hnone, by simp, ⟨d, [], rfl, hd⟩, [], d, rfl, hd⟩
      simp only [scanStep, hd, ↓reduceIte]
      exact .some _ ds [d] [] hspan 0 rfl
    | some offset before span after hspan n hn =>
      obtain ⟨d₀, l, hcons, hd₀⟩ := hspan.head
      -- a named one behind others takes all between into the span
      have hspan' : Span old (ds ++ [d]) before (span ++ after ++ [d]) [] := by
        refine ⟨?_, hspan.before, by simp, ⟨d₀, l ++ after ++ [d], by simp [hcons], hd₀⟩,
          _, d, rfl, hd⟩
        rw [hspan.eq]
        simp
      have hlen : ds.length = before.length + (span.length + after.length) := by
        rw [hspan.eq]
        simp
      simp only [scanStep, hd, ↓reduceIte, hlen]
      exact .some _ before _ [] hspan' _ (by simp [Nat.add_assoc])
  · rw [Bool.not_eq_true] at hd
    cases hs with
    | none offset hnone =>
      simp only [scanStep, hd, Bool.false_eq_true, ↓reduceIte]
      refine .none _ fun d' hd' => ?_
      obtain hmem | heq := List.mem_append.mp hd'
      · exact hnone d' hmem
      · rw [List.mem_singleton.mp heq]
        exact hd
    | some offset before span after hspan n hn =>
      simp only [scanStep, hd, Bool.false_eq_true, ↓reduceIte]
      -- the span stays, and one more descriptor is behind it
      refine .some _ before span (after ++ [d]) ⟨?_, hspan.before, fun d' hd' => ?_,
        hspan.head, hspan.last⟩ n hn
      · rw [hspan.eq]
        simp
      · obtain hmem | heq := List.mem_append.mp hd'
        · exact hspan.after d' hmem
        · rw [List.mem_singleton.mp heq]
          exact hd

/-- The first loop finds what it is for. -/
theorem scanned (old : List Part) (ds : List Desc) : Scanned old ds (scan old ds) := by
  induction ds using List.reverseRecOn with
  | nil => exact .none 0 (by simp)
  | append_singleton ds d ih =>
    have hstep : scan old (ds ++ [d]) = scanStep old (scan old ds) (d, ds.length) := by
      simp [scan, List.zipIdx_append]
    rw [hstep]
    exact ih.step d

/-! ### The table -/

/-- The descriptors behind the first run of named ones have other names. -/
def Adjacent (old : List Part) (ds : List Desc) : Prop :=
  ∀ d ∈ (ds.dropWhile fun d => !isNamed old d).dropWhile (isNamed old), isNamed old d = false

/-- The table with `news` in place of the named descriptors. -/
def replaced (old : List Part) (ds news : List Desc) : List Desc :=
  ds.takeWhile (fun d => !isNamed old d) ++ news ++
    (ds.dropWhile fun d => !isNamed old d).filter fun d => !isNamed old d

variable {ds before span after : List Desc}

/-- The descriptors in front of the span. -/
theorem Span.takeWhile_eq (h : Span old ds before span after) :
    ds.takeWhile (fun d => !isNamed old d) = before := by
  obtain ⟨d, l, hcons, hd⟩ := h.head
  have hbefore : ∀ d ∈ before, (!isNamed old d) = true := fun d hd => by simp [h.before d hd]
  rw [h.eq, hcons, List.append_assoc, List.takeWhile_append_of_pos hbefore, List.cons_append,
    List.takeWhile_cons_of_neg (by simp [hd]), List.append_nil]

/-- The descriptors from the span on. -/
theorem Span.dropWhile_eq (h : Span old ds before span after) :
    ds.dropWhile (fun d => !isNamed old d) = span ++ after := by
  have hsplit := List.takeWhile_append_dropWhile (p := fun d => !isNamed old d) (l := ds)
  rw [h.takeWhile_eq] at hsplit
  have heq := h.eq
  rw [← hsplit, List.append_assoc] at heq
  exact List.append_cancel_left heq

/-- The new descriptors take the place of the named ones of the span. -/
theorem Span.replaced_eq (h : Span old ds before span after) (news : List Desc) :
    replaced old ds news = before ++ news ++ (span.filter (fun d => !isNamed old d) ++ after) := by
  rw [replaced, h.takeWhile_eq, h.dropWhile_eq, List.filter_append]
  congr 2
  exact List.filter_eq_self.mpr fun d hd => by simp [h.after d hd]

/-- The named descriptors are adjacent exactly if all of the span are named. -/
theorem Span.adjacent_iff (h : Span old ds before span after) :
    Adjacent old ds ↔ ∀ d ∈ span, isNamed old d := by
  rw [Adjacent, h.dropWhile_eq]
  constructor
  · intro hadj d hd
    by_contra hne
    -- the last descriptor of the span is behind one with another name
    obtain ⟨l, e, hl, he⟩ := h.last
    have hdl : d ∈ l := by
      rw [hl, List.mem_append, List.mem_singleton] at hd
      refine hd.resolve_right ?_
      rintro rfl
      exact hne he
    have hdrop : l.dropWhile (isNamed old) ≠ [] := by
      intro hnil
      exact hne (List.dropWhile_eq_nil_iff.mp hnil d hdl)
    have hmem : e ∈ (span ++ after).dropWhile (isNamed old) := by
      rw [hl, List.append_assoc, List.dropWhile_append, if_neg (by simpa using hdrop)]
      simp
    rw [hadj e hmem] at he
    cases he
  · intro hall d hd
    rw [List.dropWhile_append_of_pos hall] at hd
    exact h.after d ((List.dropWhile_sublist _).subset hd)

/-- All named descriptors are in the span. -/
theorem Span.countP_eq (h : Span old ds before span after) :
    ds.countP (isNamed old) = span.countP (isNamed old) := by
  have hzero : ∀ l : List Desc, (∀ d ∈ l, isNamed old d = false) → l.countP (isNamed old) = 0 :=
    fun l hl => List.countP_eq_zero.mpr fun d hd => by simp [hl d hd]
  rw [h.eq, List.countP_append, List.countP_append, hzero _ h.before, hzero _ h.after,
    Nat.zero_add, Nat.add_zero]

/-! ### The steps of `fis_remap` -/

/-- The directory is its used part and what follows. -/
theorem used_append (b : List Desc) : used b ++ b.dropWhile (fun d => !d.isFree) = b :=
  List.takeWhile_append_dropWhile

/-- What `place` finds. -/
inductive Placed (b : List Desc) (old : List Part) : Option Place → Prop where
  | none (hnone : ∀ d ∈ used b, isNamed old d = false) : Placed b old none
  | some (before span after : List Desc) (hspan : Span old (used b) before span after) (n : Nat)
    (hn : span.length = n + 1) (base size : UInt32) :
    Placed b old (some ⟨before.length, before.length + n, base, size⟩)

/-- The descriptors are placed as they should be. -/
theorem placed (b : List Desc) (old : List Part) : Placed b old (place b old) := by
  have hscan := scanned old (used b)
  rw [place]
  generalize scan old (used b) = s at hscan
  cases hscan with
  | none offset hnone => exact .none hnone
  | some offset before span after hspan n hn =>
    have hle : (used b).length ≤ b.length := (List.takeWhile_sublist _).length_le
    have hlen : (used b).length = before.length + span.length + after.length := by
      rw [hspan.eq, List.length_append, List.length_append]
    -- both ends of the span are descriptors of the block
    have hfirst := List.getElem?_eq_getElem (l := b) (i := before.length) (by omega)
    have hlast := List.getElem?_eq_getElem (l := b) (i := before.length + n) (by omega)
    simp only [hfirst, hlast, Option.bind_eq_bind, Option.bind_some]
    exact .some before span after hspan n hn _ _

/-- The new descriptors fit behind the first ones, and the memory moves upwards. -/
private theorem makeRoom_eq {first last n : Nat} (hle : last ≤ first + n)
    (hin : first + n ≤ b.length) :
    ∃ b', makeRoom b first last n = some b' ∧ b'.length = b.length ∧
      b'.take first = b.take first ∧
      b'.drop (first + n) = (b.drop last).take (b.length - (first + n)) := by
  rw [makeRoom]
  by_cases heq : first + n = last
  · simp only [heq, ↓reduceIte]
    refine ⟨b, rfl, rfl, rfl, ?_⟩
    rw [List.take_of_length_le (by simp)]
  -- there are more new parts than old ones, so the descriptors behind move up
  · have hlt : first + n > last := by omega
    have hge : ¬first + n < last := by omega
    simp only [heq, hlt, hge, ↓reduceIte, memmove_up hle hin]
    refine ⟨_, rfl, ?_, ?_, ?_⟩
    · simp only [List.length_append, List.length_take, List.length_drop]
      omega
    · rw [List.take_append_of_le_length (by simp; omega), List.take_take,
        Nat.min_eq_left (by omega)]
    · rw [List.drop_append_of_le_length (by simp; omega), List.drop_eq_nil_of_le (by simp),
        List.nil_append]

/-- The memory to be erased has a negative length. -/
private theorem makeRoom_of_lt {first last n : Nat} (hlast : last ≤ b.length)
    (hlt : first + n < last) :
    makeRoom b first last n = none := by
  rw [makeRoom]
  have hne : ¬first + n = last := by omega
  have hgt : ¬first + n > last := by omega
  simp only [hne, hgt, hlt, ↓reduceIte]
  cases memmove b (first + n) last (b.length - last) with
  | none => rfl
  | some b' => exact memset_of_neg (by omega) b' _ _

/-- So has the memory to be moved. -/
private theorem makeRoom_of_gt {first last n : Nat} (hlast : last ≤ b.length)
    (hgt : b.length < first + n) : makeRoom b first last n = none := by
  rw [makeRoom]
  have hne : ¬first + n = last := by omega
  have hgt' : first + n > last := by omega
  simp only [hne, hgt', ↓reduceIte]
  rw [memmove_of_neg (by omega)]
  rfl

/-- Each partition gets a descriptor. -/
theorem length_newDescs (offset size : UInt32) (parts : List Part) :
    (newDescs offset size parts).length = parts.length := by
  induction parts generalizing offset size with
  | nil => rfl
  | cons part parts ih => rw [newDescs, List.length_cons, ih, List.length_cons]

/-- `fis_remap` with a span that the new descriptors cover. -/
theorem fisRemap_eq {p : Place} (hp : place b old = some p)
    (hle : p.last + 1 ≤ p.first + new.length) (hin : p.first + new.length ≤ b.length) :
    fisRemap b old new = some (b.take p.first ++ newDescs p.base p.size new ++
      (b.drop (p.last + 1)).take (b.length - (p.first + new.length))) := by
  obtain ⟨b', hroom, hlen, htake, hdrop⟩ := makeRoom_eq hle hin
  have hnews := length_newDescs p.base p.size new
  rw [fisRemap, hp]
  show (makeRoom b p.first (p.last + 1) new.length >>= fun b => _) = _
  rw [hroom]
  show writeCells b' p.first (newDescs p.base p.size new) = _
  rw [writeCells_eq (by omega), hnews, htake, hdrop]

/-- Fewer descriptors than the span has, or more than the block: the access is outside. -/
theorem fisRemap_of_not {p : Place} (hp : place b old = some p) (hlast : p.last < b.length)
    (hnot : ¬(p.last + 1 ≤ p.first + new.length ∧ p.first + new.length ≤ b.length)) :
    fisRemap b old new = none := by
  have hroom : makeRoom b p.first (p.last + 1) new.length = none := by
    by_cases hlt : p.first + new.length < p.last + 1
    · exact makeRoom_of_lt hlast hlt
    · exact makeRoom_of_gt hlast (by omega)
  rw [fisRemap, hp]
  show (makeRoom b p.first (p.last + 1) new.length >>= fun b => _) = _
  rw [hroom]
  rfl

/-- The first free descriptor ends the table. -/
theorem takeWhile_free (b : List Desc) :
    (b.dropWhile fun d => !d.isFree).takeWhile (fun d => !d.isFree) = [] := by
  have hhead := List.head?_dropWhile_not (fun d : Desc => !d.isFree) b
  cases hfree : b.dropWhile fun d => !d.isFree with
  | nil => rfl
  | cons d l =>
    rw [hfree] at hhead
    exact List.takeWhile_cons_of_neg (by simpa using hhead)

/-- The first entries of two lists. -/
theorem take_append_of_le {l l' : List Desc} {n : Nat} (h : l.length ≤ n) :
    (l ++ l').take n = l ++ l'.take (n - l.length) := by
  rw [List.take_append, List.take_of_length_le h]

/-- Descriptors that are moved to the end of the table do not come in front of others there. -/
theorem eq_nil_of_take {mid after free rest : List Desc} {k : Nat}
    (hfree : free.takeWhile (fun d => !d.isFree) = [])
    (hused : ∀ d ∈ mid ++ after, (!d.isFree) = true)
    (heq : (after ++ free).take k = mid ++ after ++ rest) : mid = [] := by
  -- the descriptors in use end where the free ones begin
  have hafter : (after ++ free).takeWhile (fun d => !d.isFree) = after := by
    rw [List.takeWhile_append_of_pos fun d hd => hused d (List.mem_append_right _ hd), hfree,
      List.append_nil]
  have hprefix : (mid ++ after) <+: (after ++ free).takeWhile (fun d => !d.isFree) := by
    -- in use are the middle and what is behind it, so these are a prefix of them
    have htake : mid ++ after <+: after ++ free := by
      refine List.IsPrefix.trans ?_ (List.take_prefix k (after ++ free))
      rw [heq]
      exact List.prefix_append _ _
    obtain ⟨l, hl⟩ := htake
    rw [← hl, List.takeWhile_append_of_pos hused]
    exact List.prefix_append _ _
  have hle := hprefix.length_le
  rw [hafter, List.length_append] at hle
  exact List.length_eq_zero_iff.mp (by omega)

/-! ### What `fis_remap` has to do -/

/-- The new table is complete, and what was free follows it, with erased descriptors at the end of
    the block if there are fewer new descriptors. -/
structure Remapped (b : List Desc) (old : List Part) (news b' : List Desc) : Prop where
  complete : (replaced old (used b) news).length ≤ b.length
  eq : b' = (replaced old (used b) news ++ b.dropWhile (fun d => !d.isFree) ++
    List.replicate (old.length - news.length) erased).take b.length

/-- Whatever `fis_validate` accepts, `fis_remap` replaces the descriptors of the old partitions
    inside of the block and keeps all others exactly if there are some, they are adjacent, there are
    not fewer new ones, and these fit. -/
theorem fisRemap_remapped_iff (hvalid : fisValidate b old new = 1) :
    (∃ p b', place b old = some p ∧ fisRemap b old new = some b' ∧
      Remapped b old (newDescs p.base p.size new) b') ↔
    old ≠ [] ∧ Adjacent old (used b) ∧ old.length ≤ new.length ∧
      (used b).length + new.length ≤ b.length + old.length := by
  have hcount : (used b).countP (isNamed old) = old.length := by
    rw [fisValidate] at hvalid
    split at hvalid
    · cases hvalid
    · split at hvalid
      · assumption
      · cases hvalid
  have hplaced := placed b old
  generalize hp : place b old = p at hplaced
  cases hplaced with
  | none hnone =>
    refine iff_of_false (by simp) fun hall => hall.1 ?_
    rw [← List.length_eq_zero_iff, ← hcount]
    exact List.countP_eq_zero.mpr fun d hd => by simp [hnone d hd]
  | some before span after hspan n hn base size =>
    have hsplit := used_append b
    have hlen := congrArg List.length hsplit
    have hused := congrArg List.length hspan.eq
    have hspanCount : span.countP (isNamed old) = old.length := hspan.countP_eq.symm.trans hcount
    have hle : old.length ≤ span.length := hspanCount ▸ List.countP_le_length
    have hnews := length_newDescs base size new
    have htable := hspan.replaced_eq (newDescs base size new)
    have hold : old ≠ [] := by
      obtain ⟨d, l, hcons, hd⟩ := hspan.head
      rintro rfl
      simp [isNamed] at hd
    -- adjacent means that no other descriptor stands inside the span
    have hadj : Adjacent old (used b) ↔ span.filter (fun d => !isNamed old d) = [] := by
      rw [hspan.adjacent_iff, List.filter_eq_nil_iff]
      simp
    have hspanLen : span.length = old.length + (span.filter fun d => !isNamed old d).length := by
      rw [List.length_eq_length_filter_add (isNamed old), ← List.countP_eq_length_filter,
        hspanCount]
    have hfree := takeWhile_free b
    have hnonfree : ∀ d ∈ span.filter (fun d => !isNamed old d) ++ after, (!d.isFree) = true := by
      intro d hd
      refine List.mem_takeWhile_imp (p := fun d => !d.isFree) (l := b) ?_
      show d ∈ used b
      rw [hspan.eq]
      obtain hmem | hmem := List.mem_append.mp hd
      · simp [(List.mem_filter.mp hmem).1]
      · simp [hmem]
    simp only [List.length_append] at hlen hused
    have htake : b.take before.length = before := by
      rw [← hsplit, hspan.eq, List.append_assoc, List.append_assoc, List.take_left]
    have hdrop : b.drop (before.length + n + 1) = after ++ b.dropWhile fun d => !d.isFree := by
      conv_lhs => rw [← hsplit, hspan.eq, List.append_assoc]
      exact List.drop_left' (by rw [List.length_append, hn, Nat.add_assoc])
    constructor
    -- the table in memory is complete only when nothing in the span was overwritten
    · rintro ⟨p, b', hp', hrun, hrem⟩
      obtain rfl := Option.some.inj hp'
      by_cases hfit : before.length + n + 1 ≤ before.length + new.length ∧
          before.length + new.length ≤ b.length
      · rw [fisRemap_eq hp hfit.1 hfit.2, Option.some_inj] at hrun
        simp only at hrun
        rw [htake, hdrop] at hrun
        have hcomplete := hrem.complete
        have heq := hrem.eq
        rw [htable] at hcomplete heq
        -- no descriptor of the table is cut off
        rw [List.append_assoc _ (b.dropWhile _), take_append_of_le hcomplete, ← hrun,
          List.append_assoc (before ++ _), List.append_cancel_left_eq] at heq
        have hmid := eq_nil_of_take hfree hnonfree heq
        rw [hmid, List.nil_append] at hcomplete
        rw [hmid, List.length_nil] at hspanLen
        simp only [List.length_append, hnews] at hcomplete
        exact ⟨hold, hadj.mpr hmid, by omega, by omega⟩
      · rw [fisRemap_of_not hp (by simp only; omega) hfit] at hrun
        cases hrun
    -- no other descriptor in the span: replacing the span is replacing the named ones
    · rintro ⟨-, hall, hge, hroom⟩
      have hmid := hadj.mp hall
      rw [hmid, List.length_nil] at hspanLen
      rw [hmid, List.nil_append] at htable
      refine ⟨_, _, rfl, fisRemap_eq hp (by simp only; omega) (by simp only; omega), ?_, ?_⟩
      · rw [htable]
        simp only [List.length_append, hnews]
        omega
      · have hle' : (before ++ newDescs base size new ++ after).length ≤ b.length := by
          simp only [List.length_append, hnews]
          omega
        simp only [htable, htake, hdrop, hnews, Nat.sub_eq_zero_of_le hge, List.replicate_zero,
          List.append_nil, take_append_of_le hle', List.length_append]
        rw [List.append_assoc (before ++ _), take_append_of_le (by omega)]
        congr 3
        omega

private theorem shortName_pos : 0 < 16 := by decide

/-- A name of one character. -/
def shortName (c : UInt8) : Name := (Vector.replicate 16 0).set 0 c shortName_pos

/-- A partition of 64 KiB. -/
def smallPart (c : UInt8) : Part := ⟨shortName c, 0, 0x10000, 0, 0⟩

/-- The partitions `R`, `k` and `r` in a block with room for one more. -/
def threeParts : List Desc :=
  newDescs 0x50000000 0 [smallPart 82, smallPart 107, smallPart 114] ++ [erased]

/-- `k` and `r` get a third partition between them. -/
theorem fisRemap_grows :
    (∃ p b', place threeParts [smallPart 107, smallPart 114] = some p ∧
      fisRemap threeParts [smallPart 107, smallPart 114]
        [smallPart 107, smallPart 108, smallPart 114] = some b' ∧
      Remapped threeParts [smallPart 107, smallPart 114]
        (newDescs p.base p.size [smallPart 107, smallPart 108, smallPart 114]) b') ↔
    [smallPart 107, smallPart 114] ≠ [] ∧ Adjacent [smallPart 107, smallPart 114] (used threeParts) ∧
      [smallPart 107, smallPart 114].length ≤
        [smallPart 107, smallPart 108, smallPart 114].length ∧
      (used threeParts).length + [smallPart 107, smallPart 108, smallPart 114].length ≤
        threeParts.length + [smallPart 107, smallPart 114].length :=
  fisRemap_remapped_iff (by decide)

/-- `k` and `r` become one partition: what is to be erased has a negative length. -/
theorem fisRemap_shrinks :
    fisValidate threeParts [smallPart 107, smallPart 114] [smallPart 108] = 1 ∧
      fisRemap threeParts [smallPart 107, smallPart 114] [smallPart 108] = none := by
  constructor
  · decide
  · rfl

end HandsomeMod.Native.MtdFis
