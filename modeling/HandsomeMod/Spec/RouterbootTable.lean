import HandsomeMod.ForStd.Except
import HandsomeMod.Native.Routerboot

/-!
# The table of a RouterBoot flash is in order

Every partition is checked against the one before it alone. A partition without a size is open until
the next one comes. The sums of the checks are taken in a `size_t`: where none of them overflows, the
partitions follow each other and are inside of the flash.
-/

namespace HandsomeMod.Native.Routerboot

open ForStd MtdCore

variable (s : Setup)

/-- What `rb_dynparts` can hold: the partitions of the source, with a `size_t` for each offset and
    size. -/
structure IsDynparts (dyn : List Dynpart) : Prop where
  names : dyn.map Dynpart.name = (rbDynparts s.endian).map Dynpart.name
  offset_lt : ∀ d ∈ dyn, d.offset < 2 ^ s.sizeBits
  size_lt : ∀ d ∈ dyn, d.size < 2 ^ s.sizeBits

/-- The node gives the size 0. -/
def Sizeless (dyn : List Dynpart) (pp : Node) : Prop :=
  ∃ masterOfs offset, nodeRange s dyn masterOfs pp = .ok (offset, 0)

/-- The end of no partition overflows a `size_t`. -/
def NoOverflow (parts : List Part) : Prop := ∀ p ∈ parts, p.offset + p.size < 2 ^ s.sizeBits

/-- A table for the subnodes: the partitions are in ascending order without an overlap, and inside of
    the flash. A dynamic one that was found starts at its magic, and one without a size ends where the
    next one begins. -/
structure IsTable (dyn : List Dynpart) (pps : List Node) (parts : List Part) : Prop where
  nodes : parts.map Part.ofNode = pps
  ordered : s.sizeBits < 64 ∨ NoOverflow s parts →
    parts.Pairwise fun p q => p.offset + p.size ≤ q.offset
  inside : NoOverflow s parts → ∀ p ∈ parts, p.offset + p.size ≤ s.master.size
  magic : ∀ p ∈ parts, p.ofNode.reg = none → ∀ d ∈ dyn, d.found = true →
    d.name = p.ofNode.partname → p.offset = d.offset
  closed : parts.IsChain fun p q => Sizeless s dyn p.ofNode → p.offset + p.size = q.offset

variable {s} {dyn : List Dynpart} {pp : Node} {t t' : Table} {masterOfs offset size : Nat}

/-- What was wrapped around fits a `size_t`. -/
theorem wrap_lt (s : Setup) (n : Nat) : s.wrap n < 2 ^ s.sizeBits :=
  Nat.mod_lt _ (Nat.two_pow_pos _)

/-- A number that fits is kept. -/
theorem wrap_of_lt {n : Nat} (h : n < 2 ^ s.sizeBits) : s.wrap n = n := Nat.mod_eq_of_lt h

/-- A `size_t` has 64 bits at most. -/
private theorem pow_sizeBits_le (s : Setup) : 2 ^ s.sizeBits ≤ 2 ^ 64 :=
  Nat.pow_le_pow_right (by decide) s.sizeBits_le

/-- An aligned position fits a `size_t`. -/
private theorem alignBlock_lt (s : Setup) (n : Nat) : alignBlock s n < 2 ^ s.sizeBits :=
  Nat.lt_of_le_of_lt (Nat.div_mul_le_self _ _) (wrap_lt s _)

/-! ### One node -/

/-- The found partitions have different names. -/
private theorem nodup_names (hdyn : IsDynparts s dyn) : (dyn.map Dynpart.name).Nodup := by
  rw [hdyn.names]
  show ["hard_config", "soft_config", "dtb_config"].Nodup
  decide

/-- A dynamic partition that was found gives the range of its node. -/
private theorem dynRange_of_found (hdyn : IsDynparts s dyn) {d : Dynpart} (hd : d ∈ dyn)
    (hfound : d.found = true) (hname : d.name = pp.partname) (masterOfs : Nat) :
    dynRange dyn masterOfs pp = (d.offset, d.size) := by
  rw [dynRange]
  cases hfind : dyn.find? fun d => pp.partname = d.name ∧ d.found = true with
  | none =>
    have hnot := List.find?_eq_none.mp hfind d hd
    simp [hname, hfound] at hnot
  | some d' =>
    have hd' := List.mem_of_find?_eq_some hfind
    have hname' : pp.partname = d'.name ∧ d'.found = true := by
      simpa using List.find?_some hfind
    -- the names are different
    rw [List.inj_on_of_nodup_map (nodup_names hdyn) hd hd' (hname.trans hname'.1)]

/-- The range of a found partition fits a `size_t`. -/
private theorem dynRange_lt (hdyn : IsDynparts s dyn) (hofs : masterOfs < 2 ^ s.sizeBits)
    (pp : Node) :
    (dynRange dyn masterOfs pp).1 < 2 ^ s.sizeBits ∧
      (dynRange dyn masterOfs pp).2 < 2 ^ s.sizeBits := by
  rw [dynRange]
  cases hfind : dyn.find? fun d => pp.partname = d.name ∧ d.found = true with
  | none => exact ⟨hofs, Nat.two_pow_pos _⟩
  | some d =>
    have hd := List.mem_of_find?_eq_some hfind
    exact ⟨hdyn.offset_lt d hd, hdyn.size_lt d hd⟩

/-- The size that is found does not depend on where the previous partition ends. -/
private theorem dynRange_size (dyn : List Dynpart) (masterOfs masterOfs' : Nat) (pp : Node) :
    (dynRange dyn masterOfs pp).2 = (dynRange dyn masterOfs' pp).2 := by
  rw [dynRange, dynRange]
  cases dyn.find? fun d => pp.partname = d.name ∧ d.found = true <;> rfl

/-- What a node gives: the numbers of `reg`, or the range of a dynamic partition, whose size may be
    another one. -/
private theorem nodeRange_cases (h : nodeRange s dyn masterOfs pp = .ok (offset, size)) :
    (∃ reg, pp.reg = some reg ∧ offset = s.wrap (ofReadNumber reg s.addrCells) ∧
      size = s.wrap (ofReadNumber (reg.drop (4 * s.addrCells)) s.sizeCells)) ∨
    (pp.reg = none ∧ offset = (dynRange dyn masterOfs pp).1 ∧
      ((∃ sz, pp.size = some sz ∧ size = s.wrap (ofReadNumber sz s.sizeCells)) ∨
        (pp.size = none ∧ size = (dynRange dyn masterOfs pp).2))) := by
  rw [nodeRange] at h
  -- a `reg` property gives both numbers; without one each is its property or the found value
  cases hreg : pp.reg with
  | some reg =>
    rw [hreg] at h
    simp only at h
    split at h
    · cases h
    · cases h
      exact .inl ⟨reg, rfl, rfl, rfl⟩
  | none =>
    rw [hreg] at h
    simp only at h
    cases hsize : pp.size with
    | some sz =>
      rw [hsize] at h
      simp only at h
      split at h
      · cases h
      · cases h
        exact .inr ⟨rfl, rfl, .inl ⟨sz, rfl, rfl⟩⟩
    | none =>
      rw [hsize] at h
      cases h
      exact .inr ⟨rfl, rfl, .inr ⟨rfl, rfl⟩⟩

/-- The range of a node fits a `size_t`. -/
private theorem nodeRange_lt (hdyn : IsDynparts s dyn) (hofs : masterOfs < 2 ^ s.sizeBits)
    (h : nodeRange s dyn masterOfs pp = .ok (offset, size)) :
    offset < 2 ^ s.sizeBits ∧ size < 2 ^ s.sizeBits := by
  obtain ⟨hoffset, hsize⟩ := dynRange_lt hdyn hofs pp
  rcases nodeRange_cases h with ⟨reg, -, rfl, rfl⟩ | ⟨-, rfl, ⟨sz, -, rfl⟩ | ⟨-, rfl⟩⟩
  · exact ⟨wrap_lt s _, wrap_lt s _⟩
  · exact ⟨hoffset, wrap_lt s _⟩
  · exact ⟨hoffset, hsize⟩

/-- A node without a size has none wherever the previous partition ends. -/
theorem Sizeless.size_eq (hpp : Sizeless s dyn pp)
    (h : nodeRange s dyn masterOfs pp = .ok (offset, size)) : size = 0 := by
  obtain ⟨masterOfs', offset', h'⟩ := hpp
  rcases nodeRange_cases h with ⟨reg, hreg, -, rfl⟩ | ⟨hreg, -, ⟨sz, hsz, rfl⟩ | ⟨hsz, rfl⟩⟩ <;>
    rcases nodeRange_cases h' with
      ⟨reg', hreg', -, hzero⟩ | ⟨hreg', -, ⟨sz', hsz', hzero⟩ | ⟨hsz', hzero⟩⟩
  all_goals simp_all [dynRange_size dyn masterOfs masterOfs']

/-- What happens to the previous partition. -/
private theorem fixupPrev_cases {parts parts' : List Part} (h : fixupPrev offset parts = .ok parts')
    :
    (parts = [] ∧ parts' = []) ∨
    ∃ prev older, parts = prev :: older ∧ (prev.offset + prev.size) % 2 ^ 64 ≤ offset ∧
      ((prev.size = 0 ∧ parts' = { prev with size := offset - prev.offset } :: older) ∨
        (prev.size ≠ 0 ∧ parts' = prev :: older)) := by
  cases parts with
  | nil =>
    cases h
    exact .inl ⟨rfl, rfl⟩
  | cons prev older =>
    rw [fixupPrev] at h
    split at h
    · cases h
    · next hle =>
      split at h
      -- the size of the part before was left open, and is filled in
      · next hsize =>
        cases h
        exact .inr ⟨prev, older, rfl, by omega, .inl ⟨hsize, rfl⟩⟩
      · next hsize =>
        cases h
        exact .inr ⟨prev, older, rfl, by omega, .inr ⟨hsize, rfl⟩⟩

/-- What a turn of the loop does. -/
private theorem parseNode_ok (h : parseNode s dyn t pp = .ok t') :
    ∃ offset size parts, nodeRange s dyn t.masterOfs pp = .ok (offset, size) ∧
      fixupPrev offset t.parts = .ok parts ∧ s.wrap (offset + size) ≤ s.master.size ∧
      t' = { parts := { name := pp.partname, offset := offset, size := size,
                        maskFlags := maskFlags pp, ofNode := pp } :: parts
             masterOfs := alignBlock s (offset + size) } := by
  obtain ⟨⟨offset, size⟩, hrange, h⟩ := bind_ok h
  obtain ⟨parts, hparts, h⟩ := bind_ok h
  refine ⟨offset, size, parts, hrange, hparts, ?_⟩
  by_cases hout : s.wrap (offset + size) > s.master.size
  · rw [if_pos hout] at h
    cases h
  · rw [if_neg hout] at h
    cases h
    exact ⟨by omega, rfl⟩

/-! ### The invariant -/

/-- What the loop over the subnodes keeps: `IsTable` of the partitions in the opposite order, the
    first of which is still open where it has no size. -/
structure Inv (s : Setup) (dyn : List Dynpart) (t : Table) : Prop where
  masterOfs_lt : t.masterOfs < 2 ^ s.sizeBits
  lt : ∀ p ∈ t.parts, p.offset < 2 ^ s.sizeBits ∧ p.size < 2 ^ s.sizeBits
  ordered : s.sizeBits < 64 ∨ NoOverflow s t.parts →
    t.parts.Pairwise fun q p => p.offset + p.size ≤ q.offset
  inside : NoOverflow s t.parts → ∀ p ∈ t.parts, p.offset + p.size ≤ s.master.size
  magic : ∀ p ∈ t.parts, p.ofNode.reg = none → ∀ d ∈ dyn, d.found = true →
    d.name = p.ofNode.partname → p.offset = d.offset
  closed : t.parts.IsChain fun q p => Sizeless s dyn p.ofNode → p.offset + p.size = q.offset
  opened : ∀ p ∈ t.parts.head?, Sizeless s dyn p.ofNode → p.size = 0

/-- At first the table is empty. -/
theorem inv_start (s : Setup) (dyn : List Dynpart) : Inv s dyn { parts := [], masterOfs := 0 } where
  masterOfs_lt := Nat.two_pow_pos _
  lt := by simp
  ordered _ := .nil
  inside _ := by simp
  magic := by simp
  closed := .nil
  opened := by simp

/-- The check against the previous partition, where its end does not overflow. -/
private theorem prev_le {prev : Part} (hle : (prev.offset + prev.size) % 2 ^ 64 ≤ offset)
    (hlt : prev.offset + prev.size < 2 ^ 64) : prev.offset + prev.size ≤ offset := by
  rwa [Nat.mod_eq_of_lt hlt] at hle

/-- What holds in front of a partition at an offset: all others end there at the latest, and the last
    one right there where it has no size. -/
structure Fixed (s : Setup) (dyn : List Dynpart) (offset : Nat) (parts : List Part) : Prop where
  lt : ∀ p ∈ parts, p.offset < 2 ^ s.sizeBits ∧ p.size < 2 ^ s.sizeBits
  ordered : s.sizeBits < 64 ∨ NoOverflow s parts →
    parts.Pairwise fun q p => p.offset + p.size ≤ q.offset
  ends : s.sizeBits < 64 ∨ NoOverflow s parts → ∀ p ∈ parts, p.offset + p.size ≤ offset
  inside : NoOverflow s parts → offset ≤ s.master.size →
    ∀ p ∈ parts, p.offset + p.size ≤ s.master.size
  magic : ∀ p ∈ parts, p.ofNode.reg = none → ∀ d ∈ dyn, d.found = true →
    d.name = p.ofNode.partname → p.offset = d.offset
  closed : parts.IsChain fun q p => Sizeless s dyn p.ofNode → p.offset + p.size = q.offset
  next : ∀ p ∈ parts.head?, Sizeless s dyn p.ofNode → p.offset + p.size = offset

/-- Partitions in order end where the last one does, at the latest. -/
private theorem ends_of_ordered {prev : Part} {older : List Part}
    (h : (prev :: older).Pairwise fun q p => p.offset + p.size ≤ q.offset)
    (hprev : prev.offset + prev.size ≤ offset) :
    ∀ p ∈ prev :: older, p.offset + p.size ≤ offset := by
  intro p hp
  rcases List.mem_cons.mp hp with rfl | hp
  · exact hprev
  · have hle := List.rel_of_pairwise_cons h hp
    omega

/-- A previous partition without a size ends where this one begins. -/
theorem Inv.fixup_open (hinv : Inv s dyn t) {prev : Part} {older : List Part}
    (hparts : t.parts = prev :: older) (hzero : prev.size = 0) (hle : prev.offset ≤ offset)
    (hoffset : offset < 2 ^ s.sizeBits) :
    Fixed s dyn offset ({ prev with size := offset - prev.offset } :: older) := by
  have holder : ∀ p ∈ older, p ∈ t.parts := fun p hp => by simp [hparts, hp]
  have hprev : prev ∈ t.parts := by simp [hparts]
  have hend : prev.offset + (offset - prev.offset) = offset := by omega
  -- the open partition had size 0, so what does not overflow now did not before
  have hno : NoOverflow s ({ prev with size := offset - prev.offset } :: older) →
      NoOverflow s t.parts := by
    intro hno p hp
    rw [hparts, List.mem_cons] at hp
    rcases hp with rfl | hp
    · omega
    · exact hno p (List.mem_cons_of_mem _ hp)
  -- the end of the open partition does not count for the order, all others lie before its start
  have hordered : s.sizeBits < 64 ∨
      NoOverflow s ({ prev with size := offset - prev.offset } :: older) →
      ({ prev with size := offset - prev.offset } :: older).Pairwise
        fun q p => p.offset + p.size ≤ q.offset := by
    intro hor
    have hpair := hinv.ordered (hor.imp_right hno)
    rw [hparts, List.pairwise_cons] at hpair
    exact List.pairwise_cons.mpr hpair
  have hclosed := hinv.closed
  rw [hparts] at hclosed
  refine ⟨fun p hp => ?_, hordered, fun hor => ends_of_ordered (hordered hor) hend.le,
    fun hnew hin p hp => ?_, fun p hp => ?_, ?_, ?_⟩
  · rcases List.mem_cons.mp hp with rfl | hp
    · exact ⟨(hinv.lt prev hprev).1, Nat.lt_of_le_of_lt (Nat.sub_le _ _) hoffset⟩
    · exact hinv.lt p (holder p hp)
  · rcases List.mem_cons.mp hp with rfl | hp
    · exact hend.le.trans hin
    · exact hinv.inside (hno hnew) p (holder p hp)
  · rcases List.mem_cons.mp hp with rfl | hp
    · exact hinv.magic prev hprev
    · exact hinv.magic p (holder p hp)
  · cases older with
    | nil => exact List.isChain_singleton _
    | cons p older =>
      rw [List.isChain_cons_cons] at hclosed ⊢
      exact hclosed
  · rintro p ⟨⟩ -
    exact hend

/-- A previous partition with a size stays. -/
theorem Inv.fixup_keep (hinv : Inv s dyn t) {prev : Part} {older : List Part}
    (hparts : t.parts = prev :: older) (hsize : prev.size ≠ 0)
    (hle : (prev.offset + prev.size) % 2 ^ 64 ≤ offset) : Fixed s dyn offset t.parts := by
  have hpow := pow_sizeBits_le s
  obtain ⟨hprevLt, hsizeLt⟩ := hinv.lt prev (by simp [hparts])
  -- the end was compared modulo `2 ^ 64`
  have hend : s.sizeBits < 64 ∨ NoOverflow s t.parts → prev.offset + prev.size ≤ offset := by
    rintro (hbits | hno)
    · -- the sum of two shorter numbers
      have hhalf : 2 ^ s.sizeBits ≤ 2 ^ 63 := Nat.pow_le_pow_right (by decide) (by omega)
      exact prev_le hle (by omega)
    · have hlt := hno prev (by simp [hparts])
      exact prev_le hle (by omega)
  refine ⟨hinv.lt, hinv.ordered, fun hor => ?_, fun hno _ => hinv.inside hno, hinv.magic,
    hinv.closed, ?_⟩
  · have hpair := hinv.ordered hor
    rw [hparts] at hpair ⊢
    exact ends_of_ordered hpair (hend hor)
  · intro p hp hless
    obtain rfl : prev = p := by simpa [hparts] using hp
    exact absurd (hinv.opened prev hp hless) hsize

/-- Adjusting the previous partition keeps the table right. -/
theorem Inv.fixup (hinv : Inv s dyn t) (hoffset : offset < 2 ^ s.sizeBits) {parts : List Part}
    (h : fixupPrev offset t.parts = .ok parts) : Fixed s dyn offset parts := by
  rcases fixupPrev_cases h with ⟨-, rfl⟩ | ⟨prev, older, hparts, hle, ⟨hzero, rfl⟩ | ⟨hsize, rfl⟩⟩
  · exact ⟨by simp, fun _ => .nil, fun _ => by simp, fun _ _ => by simp, by simp, .nil, by simp⟩
  · have hlt := (hinv.lt prev (by simp [hparts])).1
    have hpow := pow_sizeBits_le s
    refine hinv.fixup_open hparts hzero ?_ hoffset
    have hprev := prev_le hle (by omega)
    omega
  · have hfixed := hinv.fixup_keep hparts hsize hle
    rwa [hparts] at hfixed

/-- The step of the loop. -/
theorem Inv.parseNode (hdyn : IsDynparts s dyn) (hinv : Inv s dyn t)
    (h : parseNode s dyn t pp = .ok t') :
    Inv s dyn t' ∧ t'.parts.map Part.ofNode = pp :: t.parts.map Part.ofNode := by
  obtain ⟨offset, size, parts, hrange, hparts, hin, rfl⟩ := parseNode_ok h
  obtain ⟨hoffset, hsize⟩ := nodeRange_lt hdyn hinv.masterOfs_lt hrange
  have hfixed := hinv.fixup hoffset hparts
  refine ⟨⟨alignBlock_lt s _, fun p hp => ?_, fun hor => ?_, fun hno p hp => ?_,
    fun p hp => ?_, ?_, ?_⟩, ?_⟩
  · rcases List.mem_cons.mp hp with rfl | hp
    · exact ⟨hoffset, hsize⟩
    · exact hfixed.lt p hp
  · have hold : s.sizeBits < 64 ∨ NoOverflow s parts :=
      hor.imp_right fun hno p hp => hno p (List.mem_cons_of_mem _ hp)
    exact List.pairwise_cons.mpr ⟨hfixed.ends hold, hfixed.ordered hold⟩
  · have hnew : offset + size < 2 ^ s.sizeBits := hno _ List.mem_cons_self
    rw [wrap_of_lt hnew] at hin
    rcases List.mem_cons.mp hp with rfl | hp
    · exact hin
    · exact hfixed.inside (fun q hq => hno q (List.mem_cons_of_mem _ hq)) (by omega) p hp
  · rcases List.mem_cons.mp hp with rfl | hp
    -- a `reg` property overrides the place of the magic
    · intro hreg d hd hfound hname
      rcases nodeRange_cases hrange with ⟨reg, hsome, -⟩ | ⟨-, hoffset, -⟩
      · have hreg' : pp.reg = none := hreg
        rw [hreg'] at hsome
        cases hsome
      · show offset = d.offset
        rw [hoffset, dynRange_of_found hdyn hd hfound hname]
    · exact hfixed.magic p hp
  · cases parts with
    | nil => exact List.isChain_singleton _
    | cons p parts => exact List.isChain_cons_cons.mpr ⟨hfixed.next p rfl, hfixed.closed⟩
  · rintro p ⟨⟩ hless
    exact hless.size_eq hrange
  -- the fixup changes a size, never the node of a partition
  · rcases fixupPrev_cases hparts with ⟨hnil, rfl⟩ | ⟨prev, older, hcons, -, ⟨-, rfl⟩ | ⟨-, rfl⟩⟩
    · simp [hnil]
    · simp [hcons]
    · simp [hcons]

/-- The whole loop. -/
theorem Inv.foldlM (hdyn : IsDynparts s dyn) (hinv : Inv s dyn t) {pps : List Node}
    (h : pps.foldlM (Routerboot.parseNode s dyn) t = .ok t') :
    Inv s dyn t' ∧ t'.parts.map Part.ofNode = pps.reverse ++ t.parts.map Part.ofNode := by
  induction pps generalizing t with
  | nil =>
    cases h
    exact ⟨hinv, rfl⟩
  | cons pp pps ih =>
    rw [List.foldlM_cons] at h
    obtain ⟨t₁, hnode, h⟩ := bind_ok h
    obtain ⟨hinv₁, hnodes₁⟩ := hinv.parseNode hdyn hnode
    obtain ⟨hinv', hnodes'⟩ := ih hinv₁ h
    exact ⟨hinv', by simp [hnodes', hnodes₁]⟩

/-- The invariant says that the table is right. -/
theorem Inv.isTable (hinv : Inv s dyn t) {pps : List Node}
    (hnodes : t.parts.map Part.ofNode = pps.reverse) : IsTable s dyn pps t.parts.reverse where
  nodes := by rw [List.map_reverse, hnodes, List.reverse_reverse]
  ordered hor := by
    rw [List.pairwise_reverse]
    exact hinv.ordered (hor.imp_right fun hno p hp => hno p (List.mem_reverse.mpr hp))
  inside hno p hp :=
    hinv.inside (fun q hq => hno q (List.mem_reverse.mpr hq)) p (List.mem_reverse.mp hp)
  magic p hp := hinv.magic p (List.mem_reverse.mp hp)
  closed := List.isChain_reverse.mpr hinv.closed

/-! ### The parser -/

/-- The parser returns the number of partitions of a table, or it leaves none: it fails, or there is
    no subnode. -/
theorem parseFound_isTable (s : Setup) {dyn : List Dynpart} (hdyn : IsDynparts s dyn)
    (nodes : Option (List Node)) :
    (0 < (parseFound s dyn nodes).ret → ∃ pps parts, nodes = some pps ∧
      parseFound s dyn nodes = { ret := parts.length, pparts := some parts } ∧
      IsTable s dyn pps parts) ∧
    ((parseFound s dyn nodes).ret ≤ 0 → (parseFound s dyn nodes).pparts = none ∧
      ((parseFound s dyn nodes).ret < 0 ∨ nodes = none ∨ nodes = some [])) := by
  have hnone : ∀ rc : Int, rc ≤ 0 → ¬0 < rc := fun rc hle => Int.not_lt.mpr hle
  -- no node, an empty list, and else the fold over the nodes with its errors
  match nodes with
  | none => exact ⟨fun h => absurd h (hnone 0 le_rfl), fun _ => ⟨rfl, .inr (.inl rfl)⟩⟩
  | some [] => exact ⟨fun h => absurd h (hnone 0 le_rfl), fun _ => ⟨rfl, .inr (.inr rfl)⟩⟩
  | some (pp :: pps) =>
    cases hmemory : s.memory with
    | false =>
      have hneg := Errno.toRet_neg .enomem
      simp only [parseFound, hmemory]
      exact ⟨fun h => absurd h (hnone _ hneg.le), fun _ => ⟨rfl, .inl hneg⟩⟩
    | true =>
      cases hfold : (pp :: pps).foldlM (parseNode s dyn) { parts := [], masterOfs := 0 } with
      | error rc =>
        have hneg := Errno.toRet_neg rc
        simp only [parseFound, hmemory, hfold]
        exact ⟨fun h => absurd h (hnone _ hneg.le), fun _ => ⟨rfl, .inl hneg⟩⟩
      | ok t =>
        obtain ⟨hinv, hnodes⟩ := (inv_start s dyn).foldlM hdyn hfold
        rw [List.map_nil, List.append_nil] at hnodes
        have hlength : t.parts.length = pps.length + 1 := by
          have hmap := congrArg List.length hnodes
          simpa using hmap
        simp only [parseFound, hmemory, hfold]
        refine ⟨fun _ => ⟨pp :: pps, t.parts.reverse, rfl, by simp, hinv.isTable hnodes⟩,
          fun hle => absurd hle ?_⟩
        show ¬((t.parts.length : Int) ≤ 0)
        omega

private theorem flash16_ge : 32 ≤ 32 := by decide

private theorem flash16_le : 32 ≤ 64 := by decide

/-- A flash of 16 MiB on a machine of 32 bits. -/
def flash16 : Setup where
  endian := .little
  sizeBits := 32
  master :=
    { size := 0x1000000, erasesize := 0x1000, flash := fun _ => 0xff,
      outcome := fun _ _ => .ok sizeofFdtHeader }
  garbage := [0, 0, 0, 0]
  addrCells := 1
  sizeCells := 1
  memory := true
  sizeBits_ge := flash16_ge
  sizeBits_le := flash16_le
  length_garbage := rfl

/-- `hard_config` is in the second block. -/
def hardFound : List Dynpart :=
  (rbDynparts .little).map fun d =>
    if d.name = "hard_config" then { d with offset := 0x1000, found := true } else d

/-- A fixed partition without a size, and `hard_config` behind it. -/
def bootNode : Node :=
  { label := none, nameProp := none, nodeName := "partition@0", reg := some [0, 0, 0, 0, 0, 0, 0, 0],
    size := none, readOnly := true, lock := false }

def hardNode : Node :=
  { label := none, nameProp := none, nodeName := "hard_config", reg := none, size := none,
    readOnly := true, lock := false }

/-- A boot partition and the configuration that was found. -/
theorem parseFound_isTable_hard : ∃ pps parts, some [bootNode, hardNode] = some pps ∧
    parseFound flash16 hardFound (some [bootNode, hardNode]) =
      { ret := parts.length, pparts := some parts } ∧ IsTable flash16 hardFound pps parts :=
  (parseFound_isTable flash16 ⟨by decide, by decide, by decide⟩ (some [bootNode, hardNode])).1
    (by decide)

/-- `reg = <0x1000 0xfffff000>` -/
def wideNode : Node :=
  { label := none, nameProp := none, nodeName := "partition@1000",
    reg := some [0, 0, 0x10, 0, 0xff, 0xff, 0xf0, 0], size := none, readOnly := false, lock := false }

/-- Without subnodes 0 is returned, which is no error. A sum that overflows passes for the end of a
    partition inside of the flash. -/
theorem wideNode_outside :
    parseFound flash16 hardFound (some []) = { ret := 0, pparts := none } ∧
      ∃ part, parseFound flash16 hardFound (some [wideNode]) = { ret := 1, pparts := some [part] } ∧
        flash16.master.size < part.offset + part.size :=
  ⟨rfl, { name := "partition@1000", offset := 0x1000, size := 0xfffff000, ofNode := wideNode },
    by decide, by decide⟩

end HandsomeMod.Native.Routerboot
