import HandsomeMod.Spec.RouterbootTable

/-!
# The search for RouterBoot partitions

The search reads a number at every block and compares it with the magics that are left. A read that
fails is tried again at the same offset. `Turned` says what one turn does, `SearchInv` what every
state keeps.
-/

namespace HandsomeMod.Native.Routerboot

open ForStd MtdCore Loop

/-! ### What is to be found -/

section Defs

variable (s : Setup)

/-- The states that the search comes to. -/
def Reached (c : Cursor) : Prop := Reaches (findTurn s) (findStart s) c

/-- All reads at an offset bring all bytes. -/
def Readable (o len : Nat) : Prop :=
  ∀ n, mtdRead s.master n o len = .ok (bytesAt s.master.flash o len)

/-- The flash carries the magic of a partition. -/
def Carries (p : Dynpart) (o : Nat) : Prop := bufMagic s (bytesAt s.master.flash o 4) = p.magic

/-- The size that a partition has at an offset. -/
def sizeAt (p : Dynpart) (o : Nat) : Nat :=
  if p.sizeFixup then beField 4 (bytesAt s.master.flash o sizeofFdtHeader) 4 else rbBlockSize

/-- A readable block with the magic of a partition, and a usable size. -/
structure Hit (p : Dynpart) (o : Nat) : Prop where
  aligned : rbBlockSize ∣ o
  readable : Readable s o 4
  carries : Carries s p o
  header : p.sizeFixup = true → Readable s o sizeofFdtHeader
  usable : sizeAt s p o ≠ 0

/-- Inside of a partition that the search has accepted. -/
def Covered (o : Nat) : Prop :=
  ∃ c, Reached s c ∧ ∃ p ∈ c.parts, p.found = true ∧ p.offset < o ∧ o < p.offset + p.size

/-! ### What a turn accepts -/

/-- What `buf` holds behind the read of a state. -/
def ReadsMagic (c : Cursor) (magic : Nat) : Prop :=
  c.offset < s.master.size ∧ ∃ bytes, mtdRead s.master c.reads c.offset 4 = .ok bytes ∧
    bufMagic s (readInto c.buf bytes) = magic

/-- The turn at a state accepts a partition. -/
structure Takes (c : Cursor) (p : Dynpart) : Prop where
  mem : p ∈ c.parts
  left : p.found = false
  magic : ReadsMagic s c p.magic
  fixup : p.sizeFixup = true →
    ∃ p', routerbootDtbsfixup s (c.reads + 1) { p with offset := c.offset } = .ok p'

end Defs

variable {s : Setup} {c : Cursor} {p p' : Dynpart} {o : Nat}

/-! ### The loop over the partitions -/

section Visit

variable {offset magic reads : Nat}

/-- Nothing that is left has the magic. -/
theorem visitParts_miss {ps : List Dynpart} (h : ∀ p ∈ ps, p.found = true ∨ p.magic ≠ magic) :
    visitParts s offset magic reads ps =
      { offset := offset, reads := reads, parts := ps,
        allfound := ps.all fun p => p.found } := by
  induction ps with
  | nil => rfl
  | cons p ps ih =>
    have hrest := ih fun q hq => h q (List.mem_cons_of_mem _ hq)
    rw [visitParts]
    by_cases hfound : p.found = true
    · simp [hfound, hrest, Visit.behind]
    · have hne := (h p List.mem_cons_self).resolve_left hfound
      simp [hfound, hne, hrest, Visit.behind]

/-- The partitions in front of the one with the magic stay. -/
private theorem visitParts_append {pre ps : List Dynpart}
    (h : ∀ p ∈ pre, p.found = true ∨ p.magic ≠ magic) :
    visitParts s offset magic reads (pre ++ ps) =
      { visitParts s offset magic reads ps with
        parts := pre ++ (visitParts s offset magic reads ps).parts
        allfound := (visitParts s offset magic reads ps).allfound &&
          pre.all fun p => p.found } := by
  induction pre with
  | nil => simp
  | cons p pre ih =>
    have hrest := ih fun q hq => h q (List.mem_cons_of_mem _ hq)
    rw [List.cons_append, visitParts]
    by_cases hfound : p.found = true
    · simp [hfound, hrest, Visit.behind]
    · have hne := (h p List.mem_cons_self).resolve_left hfound
      simp [hfound, hne, hrest, Visit.behind]

variable {ps : List Dynpart}

/-- A partition of a known size is accepted. -/
private theorem visitParts_plain (hleft : p.found = false) (hfix : p.sizeFixup = false) :
    visitParts s offset p.magic reads (p :: ps) =
      { offset := s.wrap (offset + skip p.size), reads := reads,
        parts := { p with offset := offset, found := true } :: ps, allfound := false } := by
  rw [visitParts, if_neg (by simp [hleft]), if_pos rfl]
  dsimp only
  rw [if_neg (by simp [hfix])]

/-- A partition is accepted with the size of its header. -/
private theorem visitParts_fixup (hleft : p.found = false) (hfix : p.sizeFixup = true)
    (hok : routerbootDtbsfixup s reads { p with offset := offset } = .ok p') :
    visitParts s offset p.magic reads (p :: ps) =
      { offset := s.wrap (offset + skip p'.size), reads := reads + 1,
        parts := { p' with found := true } :: ps, allfound := false } := by
  rw [visitParts, if_neg (by simp [hleft]), if_pos rfl]
  dsimp only
  rw [if_pos hfix, hok]

/-- A partition is left whose size cannot be read. -/
private theorem visitParts_refuse (hleft : p.found = false) (hfix : p.sizeFixup = true) {rc : Errno}
    (herror : routerbootDtbsfixup s reads { p with offset := offset } = .error rc)
    (hps : ∀ q ∈ ps, q.found = true ∨ q.magic ≠ p.magic) :
    visitParts s offset p.magic reads (p :: ps) =
      { offset := offset, reads := reads + 1, parts := { p with offset := offset } :: ps,
        allfound := false } := by
  rw [visitParts, if_neg (by simp [hleft]), if_pos rfl]
  dsimp only
  rw [if_pos hfix, herror]
  simp only [visitParts_miss hps, Visit.behind, hleft, Bool.and_false]

end Visit

/-! ### Reads -/

/-- A read that brings all bytes. -/
private theorem mtdRead_full {mtd : MtdInfo} {n len : Nat} {l : List UInt8}
    (h : mtdRead mtd n o len = .ok l) (hlen : l.length = len) : l = bytesAt mtd.flash o len := by
  obtain ⟨-, -, k, -, rfl⟩ := mtdRead_ok h
  rw [length_bytesAt] at hlen
  rw [hlen]

/-- A read gives not more than asked for. -/
private theorem length_mtdRead_le {mtd : MtdInfo} {n len : Nat} {l : List UInt8}
    (h : mtdRead mtd n o len = .ok l) : l.length ≤ len := by
  obtain ⟨-, -, k, hk, rfl⟩ := mtdRead_ok h
  rw [length_bytesAt]
  exact hk

/-- What can be read is on the device. -/
theorem Readable.lt {len : Nat} (h : Readable s o len) : o < s.master.size :=
  (mtdRead_ok (h 0)).1

/-- The buffer keeps its four bytes. -/
private theorem length_readInto {buf bytes : List UInt8} (hbuf : buf.length = 4)
    (hbytes : bytes.length ≤ 4) :
    (readInto buf bytes).length = 4 := by
  rw [readInto, List.length_append, List.length_drop]
  omega

/-- Nothing is left of what was in `buf`. -/
theorem readInto_full {buf bytes : List UInt8} (hbuf : buf.length = 4) (hbytes : bytes.length = 4) :
    readInto buf bytes = bytes := by
  rw [readInto, List.drop_of_length_le (by omega), List.append_nil]

/-- At a readable block the magic of the flash is read. -/
theorem ReadsMagic.of_hit (hbuf : c.buf.length = 4) (hit : Hit s p c.offset) :
    ReadsMagic s c p.magic := by
  refine ⟨hit.readable.lt, _, hit.readable c.reads, ?_⟩
  rw [readInto_full hbuf (length_bytesAt ..)]
  exact hit.carries

/-- One magic is read. -/
theorem ReadsMagic.unique {m m' : Nat} (h : ReadsMagic s c m) (h' : ReadsMagic s c m') : m = m' := by
  obtain ⟨-, bytes, hread, rfl⟩ := h
  obtain ⟨-, bytes', hread', rfl⟩ := h'
  rw [hread] at hread'
  cases hread'
  rfl

/-! ### The fixup of a size -/

/-- The fix-up of a device tree sets the size. -/
private theorem dtbsfixup_ok {n : Nat} (hfix : p.sizeFixup = true)
    (h : routerbootDtbsfixup s n p = .ok p') :
    p' = { p with size := sizeAt s p p.offset } ∧ sizeAt s p p.offset ≠ 0 := by
  rw [routerbootDtbsfixup] at h
  split at h
  · cases h
  · next header hread =>
    split at h
    · cases h
    · next hlen =>
      obtain rfl := mtdRead_full hread (not_not.mp hlen)
      simp only at h
      split at h
      · cases h
      -- the size that was read is stored
      · next hsize =>
        cases h
        rw [sizeAt, if_pos hfix]
        exact ⟨rfl, hsize⟩

/-- A header that can be read is fixed up. -/
private theorem dtbsfixup_of_readable (n : Nat) (hfix : p.sizeFixup = true)
    (hread : Readable s p.offset sizeofFdtHeader) (hsize : sizeAt s p p.offset ≠ 0) :
    ∃ p', routerbootDtbsfixup s n p = .ok p' := by
  rw [sizeAt, if_pos hfix] at hsize
  rw [routerbootDtbsfixup, hread n]
  simp only [length_bytesAt, ne_eq, not_true_eq_false, if_false]
  rw [if_neg hsize]
  exact ⟨_, rfl⟩

/-! ### A turn -/

/-- A partition that is accepted at a state. -/
structure Placed (s : Setup) (c : Cursor) (p p' : Dynpart) : Prop where
  found : p'.found = true
  offset : p'.offset = c.offset
  name : p'.name = p.name
  magic : p'.magic = p.magic
  sizeFixup : p'.sizeFixup = p.sizeFixup
  size : p'.size = if p.sizeFixup then sizeAt s p c.offset else p.size
  usable : p.sizeFixup = true → sizeAt s p c.offset ≠ 0

/-- What a turn does. -/
inductive Turned (s : Setup) (c : Cursor) : List Dynpart ⊕ Cursor → Prop
  | stop (hle : s.master.size ≤ c.offset) : Turned s c (.inl c.parts)
  | retry (hlt : c.offset < s.master.size)
      (hread : ∀ bytes, mtdRead s.master c.reads c.offset 4 ≠ .ok bytes) :
      Turned s c (.inr { c with reads := c.reads + 1 })
  | done (hall : ∀ p ∈ c.parts, p.found = true) : Turned s c (.inl c.parts)
  | miss (buf : List UInt8) (hbuf : buf.length = 4)
      (hmiss : ∀ p ∈ c.parts, p.found = false → ¬ReadsMagic s c p.magic) :
      Turned s c (.inr { offset := s.wrap (c.offset + rbBlockSize), reads := c.reads + 1,
                         buf := buf, parts := c.parts })
  | refuse (pre : List Dynpart) (p : Dynpart) (post : List Dynpart) (buf : List UInt8)
      (hbuf : buf.length = 4) (hparts : c.parts = pre ++ p :: post) (hleft : p.found = false)
      (hmagic : ReadsMagic s c p.magic) (hfix : p.sizeFixup = true)
      (hrefuse : ∀ p', routerbootDtbsfixup s (c.reads + 1) { p with offset := c.offset } ≠ .ok p') :
      Turned s c (.inr { offset := s.wrap (c.offset + rbBlockSize), reads := c.reads + 2,
                         buf := buf, parts := pre ++ { p with offset := c.offset } :: post })
  | take (pre : List Dynpart) (p p' : Dynpart) (post : List Dynpart) (buf : List UInt8)
      (reads : Nat) (hbuf : buf.length = 4) (hparts : c.parts = pre ++ p :: post)
      (htakes : Takes s c p) (hplaced : Placed s c p p') :
      Turned s c (.inr { offset := s.wrap (s.wrap (c.offset + skip p'.size) + rbBlockSize),
                         reads := reads, buf := buf, parts := pre ++ p' :: post })

/-- The turn at a partition with the magic that is read. -/
private theorem turned_at {pre post : List Dynpart} {bytes : List UInt8} (hbuf : c.buf.length = 4)
    (hparts : c.parts = pre ++ p :: post) (hleft : p.found = false) (hlt : c.offset < s.master.size)
    (hread : mtdRead s.master c.reads c.offset 4 = .ok bytes)
    (hmagic : bufMagic s (readInto c.buf bytes) = p.magic)
    (hpre : ∀ q ∈ pre, q.found = true ∨ q.magic ≠ p.magic)
    (hpost : ∀ q ∈ post, q.found = true ∨ q.magic ≠ p.magic) : Turned s c (findTurn s c) := by
  have hbuf' := length_readInto hbuf (length_mtdRead_le hread)
  have hreads : ReadsMagic s c p.magic := ⟨hlt, bytes, hread, hmagic⟩
  have hmem : p ∈ c.parts := by simp [hparts]
  rw [findTurn, if_pos hlt, hread]
  simp only [hparts, hmagic, visitParts_append hpre]
  -- only the well-known partitions without a size have it fixed up, and that may be refused
  cases hfix : p.sizeFixup with
  | false =>
    simp only [visitParts_plain hleft hfix, Bool.false_and, Bool.false_eq_true, if_false]
    exact .take pre p { p with offset := c.offset, found := true } post _ _ hbuf' hparts
      ⟨hmem, hleft, hreads, by simp [hfix]⟩ ⟨rfl, rfl, rfl, rfl, rfl, by simp [hfix], by simp [hfix]⟩
  | true =>
    cases hok : routerbootDtbsfixup s (c.reads + 1) { p with offset := c.offset } with
    | error rc =>
      simp only [visitParts_refuse hleft hfix hok hpost, Bool.false_and, Bool.false_eq_true,
        if_false]
      exact .refuse pre p post _ hbuf' hparts hleft hreads hfix (by simp [hok])
    | ok p' =>
      simp only [visitParts_fixup hleft hfix hok, Bool.false_and, Bool.false_eq_true, if_false]
      obtain ⟨rfl, husable⟩ := dtbsfixup_ok (p := { p with offset := c.offset }) hfix hok
      exact .take pre p { p with offset := c.offset, size := sizeAt s p c.offset, found := true } post
        _ _ hbuf' hparts ⟨hmem, hleft, hreads, fun _ => ⟨_, hok⟩⟩
        ⟨rfl, rfl, rfl, rfl, rfl, (if_pos hfix).symm, fun _ => husable⟩

/-- Every turn is one of these. -/
private theorem turned (s : Setup) (hbuf : c.buf.length = 4)
    (hnodup : (c.parts.map Dynpart.magic).Nodup) :
    Turned s c (findTurn s c) := by
  by_cases hlt : c.offset < s.master.size
  swap
  · rw [findTurn, if_neg hlt]
    exact .stop (by omega)
  cases hread : mtdRead s.master c.reads c.offset 4 with
  | error rc =>
    rw [findTurn, if_pos hlt, hread]
    exact .retry hlt (by simp [hread])
  | ok bytes =>
    -- the magics differ, so at most one partition takes the block
    by_cases hhit : ∃ p ∈ c.parts, p.found = false ∧
        bufMagic s (readInto c.buf bytes) = p.magic
    · obtain ⟨p, hp, hleft, hmagic⟩ := hhit
      obtain ⟨pre, post, hparts⟩ := List.append_of_mem hp
      -- no other partition has the magic
      rw [hparts, List.map_append, List.map_cons, List.nodup_middle, List.nodup_cons,
        List.mem_append, not_or] at hnodup
      refine turned_at hbuf hparts hleft hlt hread hmagic (fun q hq => .inr fun heq => ?_)
        fun q hq => .inr fun heq => ?_
      · exact hnodup.1.1 (heq ▸ List.mem_map_of_mem hq)
      · exact hnodup.1.2 (heq ▸ List.mem_map_of_mem hq)
    · have hmiss : ∀ p ∈ c.parts, p.found = true ∨
          p.magic ≠ bufMagic s (readInto c.buf bytes) := by
        intro p hp
        by_cases hfound : p.found = true
        · exact .inl hfound
        · exact .inr fun heq => hhit ⟨p, hp, by simpa using hfound, heq.symm⟩
      rw [findTurn, if_pos hlt, hread]
      simp only [visitParts_miss hmiss]
      by_cases hall : (c.parts.all fun p => p.found) = true
      · rw [if_pos hall]
        exact .done (by simpa using hall)
      · rw [if_neg hall]
        refine .miss _ (length_readInto hbuf (length_mtdRead_le hread)) fun p hp hleft hreads => ?_
        obtain ⟨-, bytes', hread', hmagic⟩ := hreads
        rw [hread] at hread'
        cases hread'
        exact hhit ⟨p, hp, hleft, hmagic⟩

/-! ### The invariant -/

/-- What the search does not change of a partition. -/
def Dynpart.key (p : Dynpart) : String × Nat × Bool := (p.name, p.magic, p.sizeFixup)

/-- A block is a hit for all partitions of one kind. -/
theorem Hit.congr (h : Hit s p o) (hkey : p'.key = p.key) : Hit s p' o := by
  obtain ⟨hmagic, hfix⟩ := Prod.mk.inj (Prod.mk.inj hkey).2
  have hsize : sizeAt s p' o = sizeAt s p o := by rw [sizeAt, sizeAt, hfix]
  exact ⟨h.aligned, h.readable, h.carries.trans hmagic.symm, fun hfix' => h.header (hfix ▸ hfix'),
    hsize ▸ h.usable⟩

/-- What every state of the search keeps. Blocks with the magic of a partition that is left are still
    to come, but for those in an accepted partition. -/
structure SearchInv (s : Setup) (c : Cursor) : Prop where
  key : c.parts.map Dynpart.key = (rbDynparts s.endian).map Dynpart.key
  buf : c.buf.length = 4
  aligned : rbBlockSize ∣ c.offset
  offset_lt : c.offset < 2 ^ s.sizeBits
  lt : ∀ p ∈ c.parts, p.offset < 2 ^ s.sizeBits ∧ p.size < 2 ^ s.sizeBits
  plain : ∀ p ∈ c.parts, p.sizeFixup = false → p.size = rbBlockSize
  left : ∀ p ∈ c.parts, p.found = false → ∀ o, Hit s p o → c.offset ≤ o ∨ Covered s o
  taken : ∀ p ∈ c.parts, p.found = true →
    ∃ b p₀, Reached s b ∧ Takes s b p₀ ∧ p.key = p₀.key ∧ p.offset = b.offset
  found : ∀ p ∈ c.parts, p.found = true → rbBlockSize ∣ p.offset ∧ p.size = sizeAt s p p.offset ∧
    p.size ≠ 0 ∧ ∀ o, Hit s p o → p.offset ≤ o ∨ Covered s o

/-- The partitions have different magics. -/
private theorem nodup_magic_rbDynparts (e : Endian) : ((rbDynparts e).map Dynpart.magic).Nodup := by
  cases e <;> decide

/-- The search keeps the magics. -/
theorem SearchInv.magics (h : SearchInv s c) :
    c.parts.map Dynpart.magic = (rbDynparts s.endian).map Dynpart.magic := by
  have hmap := congrArg (List.map fun k => k.2.1) h.key
  rwa [List.map_map, List.map_map] at hmap

/-- The search keeps the names. -/
theorem SearchInv.names (h : SearchInv s c) :
    c.parts.map Dynpart.name = (rbDynparts s.endian).map Dynpart.name := by
  have hmap := congrArg (List.map Prod.fst) h.key
  rwa [List.map_map, List.map_map] at hmap

/-- The magics stay different. -/
theorem SearchInv.nodup (h : SearchInv s c) : (c.parts.map Dynpart.magic).Nodup := by
  rw [h.magics]
  exact nodup_magic_rbDynparts s.endian

/-- What a turn of the search does. -/
theorem SearchInv.turned (h : SearchInv s c) : Turned s c (findTurn s c) :=
  Routerboot.turned s h.buf h.nodup

/-- A `size_t` has 32 bits at least. -/
private theorem pow_le_sizeBits (s : Setup) : 2 ^ 32 ≤ 2 ^ s.sizeBits :=
  Nat.pow_le_pow_right (by decide) s.sizeBits_ge

/-- A block fits a `size_t`. -/
private theorem blockSize_lt (s : Setup) : rbBlockSize < 2 ^ s.sizeBits :=
  Nat.lt_of_lt_of_le (by decide) (pow_le_sizeBits s)

/-- A size fits a `size_t`. -/
private theorem sizeAt_lt (s : Setup) (p : Dynpart) (o : Nat) : sizeAt s p o < 2 ^ s.sizeBits := by
  rw [sizeAt]
  split
  · exact Nat.lt_of_lt_of_le (beField_lt 4 _ 4) (pow_le_sizeBits s)
  · exact blockSize_lt s

/-- The search starts with the invariant. -/
theorem searchInv_start (s : Setup) : SearchInv s (findStart s) where
  key := rfl
  buf := s.length_garbage
  aligned := Nat.dvd_zero _
  offset_lt := Nat.two_pow_pos _
  lt := by
    have hblock := blockSize_lt s
    have hpos := Nat.two_pow_pos s.sizeBits
    show ∀ p ∈ rbDynparts s.endian, _
    simp [rbDynparts, hblock]
  plain := by
    show ∀ p ∈ rbDynparts s.endian, p.sizeFixup = false → p.size = rbBlockSize
    simp [rbDynparts]
  left := fun _ _ _ _ _ => .inl (Nat.zero_le _)
  taken := by
    show ∀ p ∈ rbDynparts s.endian, p.found = true → _
    simp [rbDynparts]
  found := by
    show ∀ p ∈ rbDynparts s.endian, p.found = true → _
    simp [rbDynparts]

/-- Wrapping around does not go above. -/
private theorem wrap_le (s : Setup) (n : Nat) : s.wrap n ≤ n := Nat.mod_le _ _

/-- A `size_t` that wraps is a multiple of the block size still. -/
private theorem dvd_wrap {n : Nat} (h : rbBlockSize ∣ n) : rbBlockSize ∣ s.wrap n := by
  have hpow : rbBlockSize ∣ 2 ^ s.sizeBits := by
    show 2 ^ 12 ∣ 2 ^ s.sizeBits
    exact Nat.pow_dvd_pow 2 (by have := s.sizeBits_ge; omega)
  exact (Nat.dvd_mod_iff hpow).mpr h

/-- Two blocks, one behind the other. -/
theorem block_le {a b : Nat} (ha : rbBlockSize ∣ a) (hb : rbBlockSize ∣ b) (h : a < b) :
    a + rbBlockSize ≤ b := by
  rw [rbBlockSize] at *
  omega

/-- What is skipped is made of blocks. -/
private theorem dvd_skip (size : Nat) : rbBlockSize ∣ skip size := by
  rw [skip]
  split
  · exact Nat.dvd_mul_left _ _
  · exact Nat.dvd_zero _

/-- Blocks that are jumped over are inside of the partition. -/
private theorem lt_of_skip {a b size : Nat} (ha : rbBlockSize ∣ a) (hb : rbBlockSize ∣ b)
    (h : a < b)
    (hskip : b < a + skip size + rbBlockSize) : b < a + size := by
  have hle := block_le ha hb h
  rw [skip] at hskip
  split at hskip
  · next hsize =>
    have hdiv := Nat.div_mul_le_self (size - rbBlockSize) rbBlockSize
    rw [rbBlockSize] at *
    omega
  · omega

/-- The partitions with one changed. -/
private theorem map_key_middle {pre post : List Dynpart} (h : p'.key = p.key) :
    (pre ++ p' :: post).map Dynpart.key = (pre ++ p :: post).map Dynpart.key := by
  simp [h]

/-- A placed partition keeps its name and magic. -/
theorem Placed.key (h : Placed s c p p') : p'.key = p.key :=
  Prod.ext h.name (Prod.ext h.magic h.sizeFixup)

/-- The partitions with one exchanged. -/
theorem mem_middle {pre post : List Dynpart} {q : Dynpart} (h : q ∈ pre ++ p' :: post) :
    q = p' ∨ q ∈ pre ++ p :: post := by
  simp only [List.mem_append, List.mem_cons] at h ⊢
  tauto

/-- A partition that is left, and another one whose magic is read: the block is no hit for it. -/
theorem SearchInv.lt_of_hit (hinv : SearchInv s c) {q : Dynpart} (hq : q ∈ c.parts)
    (hqleft : q.found = false) (hit : Hit s q o) (hno : ¬Hit s q c.offset) :
    c.offset + rbBlockSize ≤ o ∨ Covered s o := by
  refine (hinv.left q hq hqleft o hit).imp_left fun hle => ?_
  have hne : c.offset ≠ o := fun heq => hno (heq ▸ hit)
  exact block_le hinv.aligned hit.aligned (by omega)

/-- The other partitions have other magics. -/
theorem SearchInv.not_hit_other (hinv : SearchInv s c) {pre post : List Dynpart} {q : Dynpart}
    (hparts : c.parts = pre ++ p :: post) (hmagic : ReadsMagic s c p.magic)
    (hq : q ∈ pre ∨ q ∈ post) : ¬Hit s q c.offset := by
  intro hit
  have heq := hmagic.unique (ReadsMagic.of_hit hinv.buf hit)
  have hnodup := hinv.nodup
  rw [hparts, List.map_append, List.map_cons, List.nodup_middle, List.nodup_cons, List.mem_append,
    not_or] at hnodup
  rcases hq with hq | hq
  · exact hnodup.1.1 (heq ▸ List.mem_map_of_mem hq)
  · exact hnodup.1.2 (heq ▸ List.mem_map_of_mem hq)

/-- The next block, where no partition changes. -/
theorem SearchInv.miss (hinv : SearchInv s c) {buf : List UInt8} (reads : Nat)
    (hbuf : buf.length = 4) (hmiss : ∀ p ∈ c.parts, p.found = false → ¬ReadsMagic s c p.magic) :
    SearchInv s { offset := s.wrap (c.offset + rbBlockSize), reads := reads, buf := buf,
                  parts := c.parts } where
  key := hinv.key
  buf := hbuf
  aligned := dvd_wrap (Nat.dvd_add hinv.aligned (Nat.dvd_refl _))
  offset_lt := wrap_lt s _
  lt := hinv.lt
  plain := hinv.plain
  left p hp hleft o hit := by
    have hno : ¬Hit s p c.offset := fun h => hmiss p hp hleft (ReadsMagic.of_hit hinv.buf h)
    exact (hinv.lt_of_hit hp hleft hit hno).imp_left (wrap_le s _).trans
  taken := hinv.taken
  found := hinv.found

/-- The next block, behind a magic without a usable size. -/
theorem SearchInv.refuse (hinv : SearchInv s c) {pre post : List Dynpart} {buf : List UInt8}
    (reads : Nat) (hbuf : buf.length = 4) (hparts : c.parts = pre ++ p :: post)
    (hleft : p.found = false) (hmagic : ReadsMagic s c p.magic) (hfix : p.sizeFixup = true)
    (hrefuse : ∀ p', routerbootDtbsfixup s (c.reads + 1) { p with offset := c.offset } ≠ .ok p') :
    SearchInv s { offset := s.wrap (c.offset + rbBlockSize), reads := reads, buf := buf,
                  parts := pre ++ { p with offset := c.offset } :: post } := by
  have hp : p ∈ c.parts := by simp [hparts]
  -- a refused partition keeps its offset but is not found
  have hold : ∀ q ∈ pre ++ { p with offset := c.offset } :: post, q.found = true → q ∈ c.parts := by
    intro q hq hfound
    rcases mem_middle (p := p) hq with rfl | hq
    · simp [hleft] at hfound
    · exact hparts ▸ hq
  refine ⟨?_, hbuf, dvd_wrap (Nat.dvd_add hinv.aligned (Nat.dvd_refl _)), wrap_lt s _, ?_, ?_, ?_,
    ?_, ?_⟩
  · have hkey : ({ p with offset := c.offset } : Dynpart).key = p.key := rfl
    refine (map_key_middle hkey).trans ?_
    rw [← hparts]
    exact hinv.key
  · intro q hq
    rcases mem_middle (p := p) hq with rfl | hq
    · exact ⟨hinv.offset_lt, (hinv.lt p hp).2⟩
    · exact hinv.lt q (hparts ▸ hq)
  · intro q hq hqfix
    rcases mem_middle (p := p) hq with rfl | hq
    · exact hinv.plain p hp hqfix
    · exact hinv.plain q (hparts ▸ hq) hqfix
  -- a hit at `offset` would have been taken here, so every open one lies in a later block
  · intro q hq hqleft o hit
    rw [List.mem_append, List.mem_cons] at hq
    rcases hq with hq | rfl | hq
    · have hno := hinv.not_hit_other hparts hmagic (.inl hq)
      exact (hinv.lt_of_hit (by simp [hparts, hq]) hqleft hit hno).imp_left (wrap_le s _).trans
    · -- its size cannot be read here
      have hhit : Hit s p o := hit.congr rfl
      have hno : ¬Hit s p c.offset := by
        intro h
        obtain ⟨p', hok⟩ := dtbsfixup_of_readable (p := { p with offset := c.offset }) (c.reads + 1)
          hfix (h.header hfix) h.usable
        exact hrefuse p' hok
      exact (hinv.lt_of_hit hp hleft hhit hno).imp_left (wrap_le s _).trans
    · have hno := hinv.not_hit_other hparts hmagic (.inr hq)
      exact (hinv.lt_of_hit (by simp [hparts, hq]) hqleft hit hno).imp_left (wrap_le s _).trans
  · exact fun q hq hfound => hinv.taken q (hold q hq hfound) hfound
  · exact fun q hq hfound => hinv.found q (hold q hq hfound) hfound

/-- The block behind an accepted partition. -/
theorem SearchInv.take (hinv : SearchInv s c) {pre post : List Dynpart} {buf : List UInt8}
    {reads : Nat} (hreach : Reached s c) (hbuf : buf.length = 4)
    (hparts : c.parts = pre ++ p :: post) (htakes : Takes s c p) (hplaced : Placed s c p p')
    (hnext : Reached s { offset := s.wrap (s.wrap (c.offset + skip p'.size) + rbBlockSize),
                         reads := reads, buf := buf, parts := pre ++ p' :: post }) :
    SearchInv s { offset := s.wrap (s.wrap (c.offset + skip p'.size) + rbBlockSize),
                  reads := reads, buf := buf, parts := pre ++ p' :: post } := by
  have hp : p ∈ c.parts := by simp [hparts]
  have hsize : p'.size = sizeAt s p c.offset := by
    rw [hplaced.size]
    split
    · rfl
    · next hfix => rw [sizeAt, if_neg hfix, hinv.plain p hp (by simpa using hfix)]
  have hsizeAt : sizeAt s p' p'.offset = sizeAt s p c.offset := by
    rw [hplaced.offset, sizeAt, sizeAt, hplaced.sizeFixup]
  have haligned : rbBlockSize ∣ c.offset + skip p'.size := Nat.dvd_add hinv.aligned (dvd_skip _)
  -- what is jumped over is in the partition
  have hcovered : ∀ q ∈ pre ++ post, q.found = false → ∀ o, Hit s q o →
      s.wrap (s.wrap (c.offset + skip p'.size) + rbBlockSize) ≤ o ∨ Covered s o := by
    intro q hq hqleft o hit
    have hno := hinv.not_hit_other hparts htakes.magic (List.mem_append.mp hq)
    have hqmem : q ∈ c.parts := by
      rw [hparts, List.mem_append, List.mem_cons]
      exact (List.mem_append.mp hq).imp_right .inr
    rcases hinv.lt_of_hit hqmem hqleft hit hno with hle | hcov
    · by_cases hskip : o < c.offset + skip p'.size + rbBlockSize
      · have hpos : c.offset < o := by
          rw [rbBlockSize] at hle
          omega
        have hin := lt_of_skip hinv.aligned hit.aligned hpos hskip
        refine .inr ⟨_, hnext, p', by simp, hplaced.found, ?_, ?_⟩
        · rw [hplaced.offset]
          exact hpos
        · rw [hplaced.offset]
          exact hin
      -- an offset behind the jump stays ahead, for wrapping only lowers the position
      · have hle₁ := wrap_le s (c.offset + skip p'.size)
        have hle₂ := wrap_le s (s.wrap (c.offset + skip p'.size) + rbBlockSize)
        exact .inl (by omega)
    · exact .inr hcov
  -- the keys, the alignment and the bounds first; then what is left to find and what is found
  refine ⟨?_, hbuf, dvd_wrap (Nat.dvd_add (dvd_wrap haligned) (Nat.dvd_refl _)), wrap_lt s _,
    ?_, ?_, ?_, ?_, ?_⟩
  · refine (map_key_middle hplaced.key).trans ?_
    rw [← hparts]
    exact hinv.key
  · intro q hq
    rcases mem_middle (p := p) hq with rfl | hq
    · rw [hplaced.offset, hsize]
      exact ⟨hinv.offset_lt, sizeAt_lt s p c.offset⟩
    · exact hinv.lt q (hparts ▸ hq)
  · intro q hq hqfix
    rcases mem_middle (p := p) hq with rfl | hq
    · rw [hplaced.sizeFixup] at hqfix
      rw [hplaced.size, hqfix]
      exact hinv.plain p hp hqfix
    · exact hinv.plain q (hparts ▸ hq) hqfix
  · intro q hq hqleft
    rw [List.mem_append, List.mem_cons] at hq
    rcases hq with hq | rfl | hq
    · exact hcovered q (List.mem_append_left _ hq) hqleft
    · rw [hplaced.found] at hqleft
      cases hqleft
    · exact hcovered q (List.mem_append_right _ hq) hqleft
  · intro q hq hfound
    rcases mem_middle (p := p) hq with rfl | hq
    · exact ⟨c, p, hreach, htakes, hplaced.key, hplaced.offset⟩
    · exact hinv.taken q (hparts ▸ hq) hfound
  · intro q hq hfound
    rcases mem_middle (p := p) hq with rfl | hq
    · refine ⟨hplaced.offset ▸ hinv.aligned, hsize.trans hsizeAt.symm, ?_, fun o hit => ?_⟩
      · rw [hsize]
        cases hfix : p.sizeFixup with
        | true => exact hplaced.usable hfix
        | false =>
          rw [sizeAt, if_neg (by simp [hfix])]
          decide
      · rw [hplaced.offset]
        exact hinv.left p hp htakes.left o (hit.congr hplaced.key.symm)
    · exact hinv.found q (hparts ▸ hq) hfound

/-- A turn of the search keeps the invariant. -/
theorem SearchInv.step (hreach : Reached s c) (hinv : SearchInv s c) {c' : Cursor}
    (h : findTurn s c = .inr c') : SearchInv s c' := by
  have hnext : Reached s c' := hreach.tail h
  have hturned := hinv.turned
  rw [h] at hturned
  cases hturned with
  -- a failed read changes nothing but the count of the reads
  | retry hlt hread =>
    exact ⟨hinv.key, hinv.buf, hinv.aligned, hinv.offset_lt, hinv.lt, hinv.plain, hinv.left,
      hinv.taken, hinv.found⟩
  | miss buf hbuf hmiss => exact hinv.miss _ hbuf hmiss
  | refuse pre p post buf hbuf hparts hleft hmagic hfix hrefuse =>
    exact hinv.refuse _ hbuf hparts hleft hmagic hfix hrefuse
  | take pre p p' post buf reads hbuf hparts htakes hplaced =>
    exact hinv.take hreach hbuf hparts htakes hplaced hnext

/-- Every state of the search meets the invariant. -/
theorem Reached.inv (h : Reached s c) : SearchInv s c := by
  induction h with
  | refl => exact searchInv_start s
  | tail hreach hlast ih => exact ih.step hreach hlast

end HandsomeMod.Native.Routerboot
