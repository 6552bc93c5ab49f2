import HandsomeMod.Spec.RouterbootSearch

/-!
# What the search for RouterBoot partitions finds

`SearchFinds` is what the search is for. It is decided by the states that the search comes to; on a
flash without errors whose device trees fill their blocks, the search finds the first of each
partition.
-/

namespace HandsomeMod.Native.Routerboot

open ForStd MtdCore Loop

section Defs

variable (s : Setup)

/-- The first block with the magic is found, if there is one outside of the accepted partitions. -/
def FindsFirst (p : Dynpart) : Prop :=
  (∃ o, Hit s p o ∧ ¬Covered s o) →
    p.found = true ∧ rbBlockSize ∣ p.offset ∧ Carries s p p.offset ∧ ¬Covered s p.offset ∧
      p.size = sizeAt s p p.offset ∧ p.size ≠ 0 ∧ ∀ o, Hit s p o → ¬Covered s o → p.offset ≤ o

/-- The search ends, and finds the first of each. -/
def SearchFinds : Prop :=
  ∃ fuel parts, routerbootFindDynparts s fuel = some parts ∧
    parts.map Dynpart.magic = (rbDynparts s.endian).map Dynpart.magic ∧
    ∀ p ∈ parts, FindsFirst s p

/-- No state of the search is one at which it goes wrong. -/
structure SearchSound : Prop where
  /-- The search does not stay where all reads fail. -/
  awake : ∀ c, Reached s c → c.offset < s.master.size →
    ∃ n ≥ c.reads, ∃ bytes, mtdRead s.master n c.offset 4 = .ok bytes
  /-- The offset comes to the end of the flash before it wraps, or nothing is left. -/
  bound : s.master.size + rbBlockSize ≤ 2 ^ s.sizeBits ∨
    ∃ c, Reached s c ∧ ∀ p ∈ c.parts, p.found = true
  /-- What is accepted is on the flash, and not inside of an accepted partition, or there is no right
  place for it. -/
  outside : ∀ c p, Reached s c → Takes s c p →
    (Carries s p c.offset ∧ ¬Covered s c.offset) ∨ ∀ o, Hit s p o → Covered s o

end Defs

variable {s : Setup} {c : Cursor} {p p' : Dynpart} {o : Nat}

/-! ### The end of the search -/

/-- Where a read will bring something, the search comes to it. -/
private theorem exists_read (hlt : c.offset < s.master.size) {n : Nat} (hn : c.reads ≤ n)
    {bytes : List UInt8} (hread : mtdRead s.master n c.offset 4 = .ok bytes) :
    ∃ n bytes, Reaches (findTurn s) c { c with reads := n } ∧
      mtdRead s.master n c.offset 4 = .ok bytes := by
  induction hk : n - c.reads generalizing c with
  | zero =>
    obtain rfl : n = c.reads := by omega
    exact ⟨c.reads, bytes, .refl, hread⟩
  | succ k ih =>
    cases hnow : mtdRead s.master c.reads c.offset 4 with
    | ok bytes => exact ⟨c.reads, bytes, .refl, hnow⟩
    -- a failed read is tried again at the same place
    | error rc =>
      have hturn : findTurn s c = .inr { c with reads := c.reads + 1 } := by
        rw [findTurn, if_pos hlt, hnow]
      obtain ⟨m, bytes', hreaches, hread'⟩ :=
        ih (c := { c with reads := c.reads + 1 }) hlt (by show c.reads + 1 ≤ n; omega) hread
          (by show n - (c.reads + 1) = k; omega)
      exact ⟨m, bytes', Relation.ReflTransGen.head hturn hreaches, hread'⟩

/-- The search ends with the partitions of its last state, at the end of the flash or with all of
    them. -/
theorem SearchInv.of_end (hinv : SearchInv s c) {parts : List Dynpart}
    (h : findTurn s c = .inl parts) :
    parts = c.parts ∧ (s.master.size ≤ c.offset ∨ ∀ p ∈ c.parts, p.found = true) := by
  have hturned := hinv.turned
  rw [h] at hturned
  cases hturned with
  | stop hle => exact ⟨rfl, .inl hle⟩
  | done hall => exact ⟨rfl, .inr hall⟩

/-- The partitions that are left. -/
def unfound (c : Cursor) : Nat := c.parts.countP fun p => !p.found

/-- The search ends from a state on at which nothing is left. -/
private theorem terminates_of_found (hreach : Reached s c) (hall : ∀ p ∈ c.parts, p.found = true)
    (hawake : c.offset < s.master.size →
      ∃ n ≥ c.reads, ∃ bytes, mtdRead s.master n c.offset 4 = .ok bytes) :
    Terminates (findTurn s) c := by
  by_cases hlt : c.offset < s.master.size
  swap
  · exact terminates_of_inl (a := c.parts) (by rw [findTurn, if_neg hlt])
  obtain ⟨n, hn, bytes, hread⟩ := hawake hlt
  obtain ⟨m, bytes', hreaches, hread'⟩ := exists_read hlt hn hread
  rw [hreaches.terminates]
  have hturned := (Reached.inv (hreach.trans hreaches)).turned
  -- with all partitions found the first read that works ends the search
  cases hturn : findTurn s { c with reads := m } with
  | inl parts => exact terminates_of_inl hturn
  | inr c' =>
    rw [hturn] at hturned
    cases hturned with
    | retry hlt hfail => exact absurd hread' (hfail bytes')
    | miss buf hbuf hmiss =>
      -- the loop over the partitions has found nothing left
      have hfound : ∀ p ∈ c.parts, p.found = true ∨
          p.magic ≠ bufMagic s (readInto c.buf bytes') := fun p hp => .inl (hall p hp)
      have hall' : (c.parts.all fun p => p.found) = true := by simpa using hall
      have hlt' : ({ c with reads := m } : Cursor).offset < s.master.size := hlt
      rw [findTurn, if_pos hlt', hread'] at hturn
      simp only [visitParts_miss hfound, hall', if_true] at hturn
      cases hturn
    | refuse pre p post buf hbuf hparts hleft =>
      have hfound := hall p (by simp [show c.parts = pre ++ p :: post from hparts])
      rw [hleft] at hfound
      cases hfound
    | take pre p p' post buf reads hbuf hparts htakes =>
      have hfound := hall p htakes.mem
      rw [htakes.left] at hfound
      cases hfound

/-- The search ends from every state on, if the offset does not wrap at the end of the flash: with
    every turn behind a read there is less left, or the offset is closer to the end. -/
private theorem terminates_of_awake (hawake : ∀ c, Reached s c → c.offset < s.master.size →
      ∃ n ≥ c.reads, ∃ bytes, mtdRead s.master n c.offset 4 = .ok bytes)
    (hbound : s.master.size + rbBlockSize ≤ 2 ^ s.sizeBits) (hreach : Reached s c) :
    Terminates (findTurn s) c := by
  -- lexicographic: a find lowers the number of partitions left, every other turn goes nearer to
  -- the end
  induction hk : unfound c using Nat.strong_induction_on generalizing c with
  | _ k ihk =>
    induction hd : s.master.size - c.offset using Nat.strong_induction_on generalizing c with
    | _ d ihd =>
      by_cases hlt : c.offset < s.master.size
      swap
      · exact terminates_of_inl (a := c.parts) (by rw [findTurn, if_neg hlt])
      obtain ⟨n, hn, bytes, hread⟩ := hawake c hreach hlt
      obtain ⟨m, bytes', hreaches, hread'⟩ := exists_read hlt hn hread
      rw [hreaches.terminates]
      have hreach₁ : Reached s { c with reads := m } := hreach.trans hreaches
      have hturned := (Reached.inv hreach₁).turned
      have hwrap : s.wrap (c.offset + rbBlockSize) = c.offset + rbBlockSize :=
        wrap_of_lt (by omega)
      have hnear : s.master.size - s.wrap (c.offset + rbBlockSize) < d := by
        rw [hwrap, rbBlockSize]
        omega
      cases hturn : findTurn s { c with reads := m } with
      | inl parts => exact terminates_of_inl hturn
      | inr c' =>
        have hreach' : Reached s c' := hreach₁.tail hturn
        rw [terminates_inr_iff hturn]
        rw [hturn] at hturned
        cases hturned with
        | retry hlt hfail => exact absurd hread' (hfail bytes')
        | miss buf hbuf hmiss => exact ihd _ hnear hreach' hk rfl
        | refuse pre p post buf hbuf hparts hleft =>
          have hparts' : c.parts = pre ++ p :: post := hparts
          refine ihd _ hnear hreach' ?_ rfl
          rw [← hk, unfound, unfound, hparts']
          simp [List.countP_append, hleft]
        | take pre p p' post buf reads hbuf hparts htakes hplaced =>
          have hparts' : c.parts = pre ++ p :: post := hparts
          refine ihk _ ?_ hreach' rfl
          rw [← hk, unfound, unfound, hparts']
          simp only [List.countP_append, List.countP_cons, htakes.left, hplaced.found]
          simp

/-- A state at which all reads fail is the last offset of the search. -/
theorem not_terminates_of_stuck (hlt : c.offset < s.master.size)
    (hstuck : ∀ n ≥ c.reads, ∀ bytes, mtdRead s.master n c.offset 4 ≠ .ok bytes) :
    ¬Terminates (findTurn s) c := by
  refine not_terminates_of_invariant (P := fun b => b.offset < s.master.size ∧
    ∀ n ≥ b.reads, ∀ bytes, mtdRead s.master n b.offset 4 ≠ .ok bytes) ?_ ⟨hlt, hstuck⟩
  rintro b ⟨hlt, hstuck⟩
  refine ⟨{ b with reads := b.reads + 1 }, .single ?_, hlt, fun n hn => hstuck n (by
    have hle : b.reads + 1 ≤ n := hn
    omega)⟩
  cases hread : mtdRead s.master b.reads b.offset 4 with
  | ok bytes => exact absurd hread (hstuck b.reads (Nat.le_refl _) bytes)
  | error rc => rw [findTurn, if_pos hlt, hread]

/-- An accepted partition stays. -/
private theorem found_step (hreach : Reached s c) {c' : Cursor} (h : findTurn s c = .inr c')
    (hp : p ∈ c.parts) (hfound : p.found = true) : p ∈ c'.parts := by
  have hturned := hreach.inv.turned
  rw [h] at hturned
  -- a turn changes one part, and that part was not found before
  have hother : ∀ {pre post : List Dynpart} {q q' : Dynpart}, c.parts = pre ++ q :: post →
      q.found = false → p ∈ pre ++ q' :: post := by
    intro pre post q q' hparts hleft
    rw [hparts, List.mem_append, List.mem_cons] at hp
    rcases hp with hp | rfl | hp
    · exact List.mem_append_left _ hp
    · rw [hleft] at hfound
      cases hfound
    · exact List.mem_append_right _ (List.mem_cons_of_mem _ hp)
  cases hturned with
  | retry => exact hp
  | miss => exact hp
  | refuse pre q post buf hbuf hparts hleft => exact hother hparts hleft
  | take pre q q' post buf reads hbuf hparts htakes => exact hother hparts htakes.left

/-- A partition that was found stays. -/
private theorem found_reaches (hreach : Reached s c) {c' : Cursor} (h : Reaches (findTurn s) c c')
    (hp : p ∈ c.parts) (hfound : p.found = true) : p ∈ c'.parts := by
  induction h with
  | refl => exact hp
  | tail hfirst hlast ih => exact found_step (hreach.trans hfirst) hlast ih hfound

/-- What a state takes is in the next one. -/
theorem Takes.step (hreach : Reached s c) (h : Takes s c p) :
    ∃ c' p', findTurn s c = .inr c' ∧ p' ∈ c'.parts ∧ Placed s c p p' := by
  have hinv := hreach.inv
  obtain ⟨hlt, bytes, hread, hmagic⟩ := h.magic
  have hturned := hinv.turned
  cases hturn : findTurn s c with
  | inl parts =>
    rcases (hinv.of_end hturn).2 with hle | hall
    · omega
    · have hfound := hall p h.mem
      rw [h.left] at hfound
      cases hfound
  | inr c' =>
    rw [hturn] at hturned
    -- the magic is read and the fixup works, so of the possible turns only the find is left
    cases hturned with
    | retry hlt hfail => exact absurd hread (hfail bytes)
    | miss buf hbuf hmiss => exact absurd h.magic (hmiss p h.mem h.left)
    | refuse pre q post buf hbuf hparts hleft hq hfix hrefuse =>
      -- the magics are different
      obtain rfl := List.inj_on_of_nodup_map hinv.nodup h.mem (by simp [hparts])
        (h.magic.unique hq)
      obtain ⟨p', hok⟩ := h.fixup hfix
      exact absurd hok (hrefuse p')
    | take pre q q' post buf reads hbuf hparts htakes hplaced =>
      obtain rfl := List.inj_on_of_nodup_map hinv.nodup h.mem htakes.mem
        (h.magic.unique htakes.magic)
      exact ⟨_, q', rfl, by simp, hplaced⟩

/-! ### When the search finds the partitions -/

/-- The search ends exactly if it does not stay where all reads fail, and comes to the end of the
    flash or to a state at which nothing is left. -/
private theorem search_terminates_iff (s : Setup) : Terminates (findTurn s) (findStart s) ↔
    (∀ c, Reached s c → c.offset < s.master.size →
      ∃ n ≥ c.reads, ∃ bytes, mtdRead s.master n c.offset 4 = .ok bytes) ∧
    (s.master.size + rbBlockSize ≤ 2 ^ s.sizeBits ∨
      ∃ c, Reached s c ∧ ∀ p ∈ c.parts, p.found = true) := by
  constructor
  · intro hterm
    constructor
    · intro c hreach hlt
      by_contra hnone
      push Not at hnone
      exact not_terminates_of_stuck hlt hnone (hreach.terminates.mp hterm)
    · obtain ⟨fuel, parts, hrun⟩ := hterm
      obtain ⟨c, hreach, hturn⟩ := reaches_of_run hrun
      have hinv : SearchInv s c := Reached.inv hreach
      refine (hinv.of_end hturn).2.imp (fun hle => ?_) fun hall => ⟨c, hreach, hall⟩
      -- the offset is one of the last block
      have hpow : rbBlockSize ∣ 2 ^ s.sizeBits := by
        show 2 ^ 12 ∣ 2 ^ s.sizeBits
        exact Nat.pow_dvd_pow 2 (by have := s.sizeBits_ge; omega)
      have hlast := block_le hinv.aligned hpow hinv.offset_lt
      omega
  -- either the offset cannot wrap, or the search gets to the point where all are found
  · rintro ⟨hawake, hbound | ⟨c, hreach, hall⟩⟩
    · exact terminates_of_awake hawake hbound .refl
    · exact hreach.terminates.mpr (terminates_of_found hreach hall (hawake c hreach))

/-- A partition of the last state is the first of its kind, unless it was taken at a wrong place. -/
private theorem findsFirst_of_end (hreach : Reached s c)
    (hend : s.master.size ≤ c.offset ∨ ∀ p ∈ c.parts, p.found = true)
    (houtside : ∀ c p, Reached s c → Takes s c p →
      (Carries s p c.offset ∧ ¬Covered s c.offset) ∨ ∀ o, Hit s p o → Covered s o)
    (hp : p ∈ c.parts) : FindsFirst s p := by
  rintro ⟨o, hit, hout⟩
  have hinv := hreach.inv
  have hfound : p.found = true := by
    rcases hend with hle | hall
    · by_contra hleft
      have hlt := hit.readable.lt
      rcases hinv.left p hp (by simpa using hleft) o hit with hge | hcov
      · omega
      · exact hout hcov
    · exact hall p hp
  obtain ⟨haligned, hsize, hpos, hfirst⟩ := hinv.found p hp hfound
  obtain ⟨b, p₀, hb, htakes, hkey, hoffset⟩ := hinv.taken p hp hfound
  -- the find was outside the covered blocks, or there is no other place for it
  rcases houtside b p₀ hb htakes with ⟨hcarries, hcov⟩ | hnone
  · have hmagic : p.magic = p₀.magic := (Prod.mk.inj (Prod.mk.inj hkey).2).1
    refine ⟨hfound, haligned, ?_, hoffset ▸ hcov, hsize, hpos, fun o' hit' hout' => ?_⟩
    · rw [hoffset]
      exact hcarries.trans hmagic.symm
    · exact (hfirst o' hit').resolve_right hout'
  · exact absurd (hnone o (hit.congr hkey.symm)) hout

/-- What is taken at a wrong place is not the first of its kind in the end. -/
private theorem outside_of_findsFirst {parts : List Dynpart} {fuel : Nat}
    (hrun : routerbootFindDynparts s fuel = some parts) (hfirst : ∀ p ∈ parts, FindsFirst s p)
    (hreach : Reached s c) (htakes : Takes s c p) :
    (Carries s p c.offset ∧ ¬Covered s c.offset) ∨ ∀ o, Hit s p o → Covered s o := by
  by_cases hsome : ∃ o, Hit s p o ∧ ¬Covered s o
  swap
  · push Not at hsome
    exact .inr hsome
  left
  obtain ⟨o, hit, hout⟩ := hsome
  obtain ⟨c', p', hturn, hp', hplaced⟩ := htakes.step hreach
  have hreach' : Reached s c' := hreach.tail hturn
  -- the partition is in the last state
  obtain ⟨fuel', hrun'⟩ := Reaches.exists_run hreach' hrun
  obtain ⟨d, hd, hlast⟩ := reaches_of_run hrun'
  have hreachD : Reached s d := hreach'.trans hd
  obtain ⟨rfl, -⟩ := hreachD.inv.of_end hlast
  have hmem := found_reaches hreach' hd hp' hplaced.found
  obtain ⟨-, -, hcarries, hcov, -⟩ := hfirst p' hmem ⟨o, hit.congr hplaced.key, hout⟩
  rw [hplaced.offset] at hcarries hcov
  exact ⟨hcarries.trans hplaced.magic, hcov⟩

/-- A search that finds what it should comes to no state at which it goes wrong. -/
theorem searchSound_of_finds (h : SearchFinds s) : SearchSound s := by
  obtain ⟨fuel, parts, hrun, -, hfirst⟩ := h
  obtain ⟨hawake, hbound⟩ := (search_terminates_iff s).mp ⟨fuel, parts, hrun⟩
  exact ⟨hawake, hbound, fun c p => outside_of_findsFirst hrun hfirst⟩

/-- A search that comes to no bad state finds its partitions. -/
theorem searchFinds_of_sound (hsound : SearchSound s) : SearchFinds s := by
  obtain ⟨fuel, parts, hrun⟩ := (search_terminates_iff s).mpr ⟨hsound.awake, hsound.bound⟩
  obtain ⟨c, hreach, hturn⟩ := reaches_of_run hrun
  have hinv : SearchInv s c := Reached.inv hreach
  obtain ⟨rfl, hend⟩ := hinv.of_end hturn
  exact ⟨fuel, c.parts, hrun, hinv.magics, fun p hp =>
    findsFirst_of_end hreach hend hsound.outside hp⟩

/-! ### A flash without errors -/

/-- All blocks can be read, the end of the flash is not near the end of a `size_t`, and a device tree
    fills its blocks, in front of the end of a `size_t`. -/
structure Clean (s : Setup) : Prop where
  readable : ∀ o, rbBlockSize ∣ o → o < s.master.size → Readable s o 4
  bound : s.master.size + rbBlockSize ≤ 2 ^ s.sizeBits
  filled : ∀ p ∈ rbDynparts s.endian, ∀ o, rbBlockSize ∣ o → o < s.master.size → Carries s p o →
    sizeAt s p o ≤ skip (sizeAt s p o) + rbBlockSize ∧
      o + skip (sizeAt s p o) + rbBlockSize < 2 ^ s.sizeBits

/-- The kind of a partition is one of `rb_dynparts`. -/
theorem SearchInv.mem_key (hinv : SearchInv s c) (hp : p ∈ c.parts) :
    ∃ q ∈ rbDynparts s.endian, q.key = p.key := by
  have hmem : p.key ∈ (rbDynparts s.endian).map Dynpart.key := by
    rw [← hinv.key]
    exact List.mem_map_of_mem hp
  exact List.mem_map.mp hmem

/-- On a clean flash what is accepted is on the flash. -/
theorem Clean.carries (hclean : Clean s) (hreach : Reached s c) (htakes : Takes s c p) :
    Carries s p c.offset := by
  have hinv := hreach.inv
  obtain ⟨hlt, bytes, hread, hmagic⟩ := htakes.magic
  rw [hclean.readable c.offset hinv.aligned hlt c.reads] at hread
  cases hread
  rwa [readInto_full hinv.buf (length_bytesAt ..)] at hmagic

/-- The search goes on behind a partition that it takes. -/
theorem Clean.behind (hclean : Clean s) (hreach : Reached s c) (htakes : Takes s c p)
    (hplaced : Placed s c p p') :
    p'.offset + p'.size ≤ c.offset + skip p'.size + rbBlockSize ∧
      s.wrap (s.wrap (c.offset + skip p'.size) + rbBlockSize) =
        c.offset + skip p'.size + rbBlockSize := by
  have hinv := hreach.inv
  obtain ⟨q, hq, hkey⟩ := hinv.mem_key htakes.mem
  obtain ⟨hmagic, hfix⟩ := Prod.mk.inj (Prod.mk.inj hkey).2
  have hsize : p'.size = sizeAt s q c.offset := by
    rw [hplaced.size, sizeAt, sizeAt, hfix]
    split
    · rfl
    · next hfixup => exact hinv.plain p htakes.mem (by simpa using hfixup)
  have hcarries : Carries s q c.offset := (hclean.carries hreach htakes).trans hmagic.symm
  obtain ⟨hfilled, hlt⟩ :=
    hclean.filled q hq c.offset hinv.aligned htakes.magic.1 hcarries
  rw [← hsize] at hfilled hlt
  rw [hplaced.offset, wrap_of_lt (n := c.offset + skip p'.size) (by omega), wrap_of_lt hlt]
  exact ⟨by omega, rfl⟩

/-- The offset only grows. -/
theorem Clean.offset_le (hclean : Clean s) (hreach : Reached s c) {c' : Cursor}
    (h : findTurn s c = .inr c') : c.offset ≤ c'.offset := by
  have hinv := hreach.inv
  have hturned := hinv.turned
  have hwrap : c.offset < s.master.size →
      s.wrap (c.offset + rbBlockSize) = c.offset + rbBlockSize := by
    intro hlt
    have hbound := hclean.bound
    exact wrap_of_lt (by omega)
  have hlt : c.offset < s.master.size := by
    by_contra hle
    rw [findTurn, if_neg hle] at h
    cases h
  rw [h] at hturned
  -- a retry stays, the other turns move on, and none of them wraps
  cases hturned with
  | retry => exact Nat.le_refl _
  | miss =>
    rw [hwrap hlt]
    exact Nat.le_add_right _ _
  | refuse =>
    rw [hwrap hlt]
    exact Nat.le_add_right _ _
  | take pre p p' post buf reads hbuf hparts htakes hplaced =>
    rw [(hclean.behind hreach htakes hplaced).2, Nat.add_assoc]
    exact Nat.le_add_right _ _

/-- On a clean flash the search does not go back. -/
theorem Clean.offset_reaches (hclean : Clean s) (hreach : Reached s c) {c' : Cursor}
    (h : Reaches (findTurn s) c c') : c.offset ≤ c'.offset := by
  induction h with
  | refl => exact Nat.le_refl _
  | tail hfirst hlast ih => exact ih.trans (hclean.offset_le (hreach.trans hfirst) hlast)

/-- All accepted partitions end in front of the offset. -/
theorem Clean.end_le (hclean : Clean s) (hreach : Reached s c) :
    ∀ p ∈ c.parts, p.found = true → p.offset + p.size ≤ c.offset := by
  -- induction on the turns: a find moves the offset behind the new partition
  induction hreach with
  | refl =>
    show ∀ p ∈ rbDynparts s.endian, p.found = true → _
    simp [rbDynparts]
  | tail hfirst hlast ih =>
    rename_i b c
    have hb : Reached s b := hfirst
    have hle := hclean.offset_le hb hlast
    have hturned := hb.inv.turned
    rw [hlast] at hturned
    intro q hq hfound
    cases hturned with
    | retry => exact ih q hq hfound
    | miss => exact (ih q hq hfound).trans hle
    | refuse pre p post buf hbuf hparts hleft =>
      rcases mem_middle (p := p) hq with rfl | hq
      · simp [hleft] at hfound
      · exact (ih q (hparts ▸ hq) hfound).trans hle
    | take pre p p' post buf reads hbuf hparts htakes hplaced =>
      rcases mem_middle (p := p) hq with rfl | hq
      · obtain ⟨hend, hwrap⟩ := hclean.behind hb htakes hplaced
        rw [hwrap]
        exact hend
      · exact (ih q (hparts ▸ hq) hfound).trans hle

/-- What is accepted behind a state is not in front of its offset. -/
theorem Clean.mem_or_le (hclean : Clean s) (hreach : Reached s c) {c' : Cursor}
    (h : Reaches (findTurn s) c c') :
    ∀ p ∈ c'.parts, p.found = true → p ∈ c.parts ∨ c.offset ≤ p.offset := by
  -- what is new since `c` was found at the offset of a later turn
  induction h with
  | refl => exact fun p hp _ => .inl hp
  | tail hfirst hlast ih =>
    rename_i b c'
    have hb : Reached s b := hreach.trans hfirst
    have hle := hclean.offset_reaches hreach hfirst
    have hturned := hb.inv.turned
    rw [hlast] at hturned
    intro q hq hfound
    cases hturned with
    | retry => exact ih q hq hfound
    | miss => exact ih q hq hfound
    | refuse pre p post buf hbuf hparts hleft =>
      rcases mem_middle (p := p) hq with rfl | hq
      · simp [hleft] at hfound
      · exact ih q (hparts ▸ hq) hfound
    | take pre p p' post buf reads hbuf hparts htakes hplaced =>
      rcases mem_middle (p := p) hq with rfl | hq
      · exact .inr (hplaced.offset ▸ hle)
      · exact ih q (hparts ▸ hq) hfound

/-- No offset of the search is inside of a partition. -/
theorem Clean.not_covered (hclean : Clean s) (hreach : Reached s c) : ¬Covered s c.offset := by
  rintro ⟨b, hb, q, hq, hfound, hlt, hin⟩
  have hright : Relator.RightUnique fun s₁ s₂ => findTurn s s₁ = .inr s₂ := by
    intro s₁ s₂ s₃ h₂ h₃
    exact Sum.inr.inj (h₂.symm.trans h₃)
  have hmem : q ∈ c.parts := by
    -- the search has one run, so one of the two states is behind the other
    rcases Relation.ReflTransGen.total_of_right_unique hright hb hreach with hbc | hcb
    · exact found_reaches hb hbc hq hfound
    · rcases hclean.mem_or_le hreach hcb q hq hfound with hmem | hle
      · exact hmem
      · omega
  have hend := hclean.end_le hreach q hmem hfound
  omega

/-- On such a flash the search finds the first of each. -/
theorem Clean.searchSound (hclean : Clean s) : SearchSound s where
  awake c hreach hlt :=
    ⟨c.reads, Nat.le_refl _, _, hclean.readable c.offset hreach.inv.aligned hlt c.reads⟩
  bound := .inl hclean.bound
  outside _ _ hreach htakes := .inl ⟨hclean.carries hreach htakes, hclean.not_covered hreach⟩

/-- The search ends and finds the first of each partition exactly if it comes to no state at which it
    goes wrong. On a flash that can be read and whose device trees fill their blocks it comes to none. -/
theorem searchFinds_iff (s : Setup) : (SearchFinds s ↔ SearchSound s) ∧ (Clean s → SearchFinds s) := by
  refine ⟨⟨searchSound_of_finds, searchFinds_of_sound⟩, fun hclean => ?_⟩
  exact searchFinds_of_sound hclean.searchSound

/-- An erased flash is clean. -/
example : Clean flash16 where
  readable o ho hlt n := by
    have hin : o < flash16.master.size ∧ 4 ≤ flash16.master.size - o := by
      have hsize : flash16.master.size = 0x1000000 := rfl
      rw [rbBlockSize] at ho
      omega
    rw [mtdRead, if_pos hin]
    rfl
  bound := by decide
  filled p hp o _ _ hcarries := by
    have hbytes : bytesAt flash16.master.flash o 4 = [0xff, 0xff, 0xff, 0xff] := rfl
    have hmagic : bufMagic flash16 (bytesAt flash16.master.flash o 4) = 0xffffffff := by
      rw [hbytes]
      decide
    have hne : ∀ p ∈ rbDynparts .little, 0xffffffff ≠ p.magic := by decide
    exact absurd (hmagic.symm.trans hcarries) (hne p hp)

/-- All reads fail. -/
def deadFlash : Setup :=
  { flash16 with master := { flash16.master with outcome := fun _ _ => .error .eio } }

/-- On a flash that cannot be read the search does not end. -/
theorem deadFlash_not_found : ¬SearchFinds deadFlash := by
  rintro ⟨fuel, parts, hrun, -⟩
  have hstuck : ¬Terminates (findTurn deadFlash) (findStart deadFlash) := by
    refine not_terminates_of_stuck (by decide) fun n _ bytes hread => ?_
    cases hread
  exact hstuck ⟨fuel, parts, hrun⟩

/-! ### The parser -/

/-- What is found on the flash is what the parser needs. -/
private theorem isDynparts_of_find {fuel : Nat} {parts : List Dynpart}
    (h : routerbootFindDynparts s fuel = some parts) : IsDynparts s parts := by
  obtain ⟨c, hreach, hturn⟩ := reaches_of_run h
  have hinv : SearchInv s c := Reached.inv hreach
  obtain ⟨rfl, -⟩ := hinv.of_end hturn
  exact ⟨hinv.names, fun d hd => (hinv.lt d hd).1, fun d hd => (hinv.lt d hd).2⟩

/-- The parser goes on with dynamic partitions, unless it ends in front of the search. -/
theorem routerbootPartitionsParse_eq {nodes : Option (List Node)} {fuel : Nat} {r : Parsed}
    (h : routerbootPartitionsParse s nodes fuel = some r) :
    ∃ dyn, IsDynparts s dyn ∧ r = parseFound s dyn nodes := by
  have hstart : IsDynparts s (rbDynparts s.endian) :=
    ⟨rfl, fun d hd => ((searchInv_start s).lt d hd).1, fun d hd => ((searchInv_start s).lt d hd).2⟩
  -- without a node nothing is searched for
  match nodes with
  | none => exact ⟨_, hstart, (Option.some.inj h).symm⟩
  | some [] => exact ⟨_, hstart, (Option.some.inj h).symm⟩
  | some (pp :: pps) =>
    cases hmemory : s.memory with
    | false =>
      simp only [routerbootPartitionsParse, hmemory] at h
      refine ⟨_, hstart, ?_⟩
      simp only [parseFound, hmemory]
      exact (Option.some.inj h).symm
    | true =>
      simp only [routerbootPartitionsParse, hmemory, if_true] at h
      obtain ⟨dyn, hfind, rfl⟩ := Option.map_eq_some_iff.mp h
      exact ⟨dyn, isDynparts_of_find hfind, rfl⟩

end HandsomeMod.Native.Routerboot
