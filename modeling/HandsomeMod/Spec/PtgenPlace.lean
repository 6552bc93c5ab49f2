import HandsomeMod.ForStd.Cursor
import HandsomeMod.Native.Ptgen

/-!
# Where the partition table generator puts partitions

The loop over the partitions against a cursor over the natural numbers, for tables whose sector
numbers stay below `2 ^ 63`.
-/

namespace HandsomeMod.Native.Ptgen

open ForStd

/-! ### Placement without wrap-around -/

/-- A sector rounded up to the alignment, if there is one. -/
def alignKb (c : Cfg) (s : Nat) : Nat :=
  if c.kbAlign = 0 then s else ((s - 1) / c.kbAlign.toNat + 1) * c.kbAlign.toNat

/-- The end of a partition, moved to the next cylinder where there is no alignment. -/
def alignCyl (c : Cfg) (s : Nat) : Nat :=
  if c.kbAlign = 0 then s + c.heads * c.sectors - s % (c.heads * c.sectors) else s

/-- The start of a partition: the one asked for, or the next aligned sector one track on. -/
def partStart (c : Cfg) (s : Nat) (p : PartInfo) : Nat :=
  if p.start ≠ 0 then max (2 * p.start.toNat) (s + c.sectors) else alignKb c (s + c.sectors)

def partNext (c : Cfg) (s : Nat) (p : PartInfo) : Nat :=
  alignCyl c (partStart c s p + 2 * p.size.toNat)

/-- Aligning does not go back. -/
theorem le_alignKb (c : Cfg) {s : Nat} (hk : 0 ≤ c.kbAlign) : s ≤ alignKb c s := by
  rw [alignKb]
  split
  · exact Nat.le_refl s
  · have hpos : 0 < c.kbAlign.toNat := by omega
    have hdiv := Nat.lt_div_mul_add (a := s - 1) hpos
    rw [Nat.add_one_mul]
    omega

/-- Aligning goes less than the alignment. -/
theorem alignKb_le (c : Cfg) (s : Nat) :
    alignKb c s ≤ s + c.kbAlign.toNat := by
  rw [alignKb]
  split
  · omega
  · have hdiv := Nat.div_mul_le_self (s - 1) c.kbAlign.toNat
    rw [Nat.add_one_mul]
    omega

/-- A cylinder has a sector. -/
private theorem cyl_pos (c : Cfg) : 0 < c.heads * c.sectors := Nat.mul_pos c.heads_pos c.sectors_pos

/-- Aligning to cylinders does not go back. -/
private theorem le_alignCyl (c : Cfg) (s : Nat) : s ≤ alignCyl c s := by
  rw [alignCyl]
  split
  · have hmod := Nat.mod_lt s (cyl_pos c)
    omega
  · exact Nat.le_refl s

/-- A partition has room for its size. -/
theorem add_size_le_partNext (c : Cfg) (s : Nat) (p : PartInfo) :
    partStart c s p + 2 * p.size.toNat ≤ partNext c s p := le_alignCyl c _

/-- A partition and its index, placed behind the cursor. -/
def placer (c : Cfg) (hk : 0 ≤ c.kbAlign) : Placer (PartInfo × Nat) where
  gap := c.sectors
  start s p := partStart c s p.1
  next s p := partNext c s p.1
  gap_le_start s p := by
    simp only [partStart]
    split
    · exact Nat.le_max_right _ _
    · exact le_alignKb c hk
  start_le_next s p := by
    have h := add_size_le_partNext c s p.1
    omega

/-! ### Unsigned arithmetic -/

/-- A sector that fits a `long`. -/
theorem toLong_of_lt {s : UInt64} (h : s.toNat < 2 ^ 63) : toLong s = s.toNat := by
  rw [toLong, BitVec.toInt_eq_toNat_of_lt]
  · rfl
  · show 2 * s.toNat < 2 ^ 64
    omega

/-- A number of 64 bits is kept. -/
theorem toNat_ofInt {n : Nat} (h : n < 2 ^ 64) : (UInt64.ofInt (n : Int)).toNat = n := by
  rw [UInt64.ofInt, UInt64.toNat_ofNat']
  omega

/-- A number of 64 bits is kept. -/
private theorem toNat_ofNat_of_lt {n : Nat} (h : n < 2 ^ 64) : (UInt64.ofNat n).toNat = n := by
  rw [UInt64.toNat_ofNat']
  exact Nat.mod_eq_of_lt h

/-- A sum without wrapping around. -/
theorem toNat_add_of_lt {a b : UInt64} (h : a.toNat + b.toNat < 2 ^ 64) :
    (a + b).toNat = a.toNat + b.toNat := by
  rw [UInt64.toNat_add]
  exact Nat.mod_eq_of_lt h

/-- A double without wrapping around. -/
theorem toNat_mul_two {a : UInt64} (h : 2 * a.toNat < 2 ^ 64) : (a * 2).toNat = 2 * a.toNat := by
  rw [UInt64.toNat_mul, Nat.mul_comm]
  exact Nat.mod_eq_of_lt h

/-- `round_to_kb` where nothing wraps. -/
theorem toNat_roundToKb {c : Cfg} (hk : 0 < c.kbAlign) {s : UInt64} (hpos : 0 < s.toNat)
    (h : alignKb c s.toNat < 2 ^ 63) : (roundToKb c s).toNat = alignKb c s.toNat := by
  have hs := le_alignKb c (s := s.toNat) hk.le
  obtain ⟨k, hkb⟩ := Int.eq_ofNat_of_zero_le hk.le
  have hz : ¬ (k : Int) = 0 := by omega
  have hint : ((toLong s - 1).tdiv c.kbAlign + 1) * c.kbAlign = (alignKb c s.toNat : Int) := by
    rw [toLong_of_lt (by omega), alignKb, hkb, if_neg hz, Int.toNat_natCast,
      show ((s.toNat : Int) - 1) = ((s.toNat - 1 : Nat) : Int) by omega]
    push_cast
    rfl
  rw [roundToKb, hint]
  exact toNat_ofInt (by omega)

/-- The size of a cylinder, without overflow. -/
private theorem cylSize_eq {c : Cfg} (hcyl : c.heads * c.sectors < 2 ^ 31) :
    cylSize c = (c.heads * c.sectors : Nat) := by
  unfold cylSize
  generalize c.heads * c.sectors = n at hcyl
  apply Int.bmod_eq_of_le
  · norm_num
  · norm_num
    omega

/-- `round_to_cyl` where nothing wraps. -/
private theorem toNat_roundToCyl {c : Cfg} (hk : c.kbAlign = 0)
    (hcyl : c.heads * c.sectors < 2 ^ 31)
    {s : UInt64} (h : alignCyl c s.toNat < 2 ^ 63) :
    (roundToCyl c s).toNat = alignCyl c s.toNat := by
  have hs := le_alignCyl c s.toNat
  have hmod := Nat.mod_lt s.toNat (cyl_pos c)
  have hint : toLong s + cylSize c - (toLong s).tmod (cylSize c) = (alignCyl c s.toNat : Int) := by
    rw [toLong_of_lt (by omega), cylSize_eq hcyl, alignCyl, if_pos hk,
      show ((s.toNat : Int).tmod ((c.heads * c.sectors : Nat) : Int))
        = ((s.toNat % (c.heads * c.sectors) : Nat) : Int) from rfl]
    omega
  rw [roundToCyl, hint]
  exact toNat_ofInt (by omega)

/-! ### One partition -/

/-- What the numbers of the options must satisfy for the arithmetic to be exact. -/
structure Exact (c : Cfg) : Prop where
  kbAlign_nonneg : 0 ≤ c.kbAlign
  cyl_lt : c.kbAlign = 0 → c.heads * c.sectors < 2 ^ 31

/-- The sectors of a track. -/
theorem toNat_sectors (c : Cfg) : (UInt64.ofNat c.sectors).toNat = c.sectors := by
  have h := c.sectors_lt
  exact toNat_ofNat_of_lt (by omega)

/-- The end of a partition and the rounding of it. -/
private theorem toNat_next {c : Cfg} (hc : Exact c) {start size : UInt64}
    (h : alignCyl c (start.toNat + 2 * size.toNat) < 2 ^ 63) :
    (if c.kbAlign = 0 then roundToCyl c (start + size * 2) else start + size * 2).toNat
      = alignCyl c (start.toNat + 2 * size.toNat) := by
  have hle := le_alignCyl c (start.toNat + 2 * size.toNat)
  have hsize : (size * 2).toNat = 2 * size.toNat := toNat_mul_two (by omega)
  have hsum : (start + size * 2).toNat = start.toNat + 2 * size.toNat := by
    rw [toNat_add_of_lt (by omega), hsize]
  split
  · next hk =>
    rw [← hsum] at h ⊢
    exact toNat_roundToCyl hk (hc.cyl_lt hk) h
  · next hk => rw [hsum, alignCyl, if_neg hk]

/-- A partition is placed as over the natural numbers, at the start asked for if there is one. -/
private theorem placePart_exact {c : Cfg} (hc : Exact c) {sect : UInt64} {p : PartInfo}
    {r : UInt64 × UInt64} (h : placePart c sect p = some r)
    (hb : partNext c sect.toNat p < 2 ^ 63) :
    r.1.toNat = partStart c sect.toNat p ∧ r.2.toNat = partNext c sect.toNat p ∧
      (p.start ≠ 0 → partStart c sect.toNat p = 2 * p.start.toNat) := by
  have hle := add_size_le_partNext c sect.toNat p
  -- The cursor and one track do not wrap: the start is behind them.
  have hgap : sect.toNat + c.sectors ≤ partStart c sect.toNat p :=
    (placer c hc.kbAlign_nonneg).gap_le_start sect.toNat (p, 0)
  have hsect : (sect + UInt64.ofNat c.sectors).toNat = sect.toNat + c.sectors := by
    rw [toNat_add_of_lt] <;> rw [toNat_sectors]
    omega
  -- the end follows from the start in the same way in every branch
  have hpair : ∀ start : UInt64, start.toNat = partStart c sect.toNat p →
      (if c.kbAlign = 0 then roundToCyl c (start + p.size * 2) else start + p.size * 2).toNat
        = partNext c sect.toNat p := by
    intro start hstart
    rw [partNext, ← hstart] at hb ⊢
    exact toNat_next hc hb
  simp only [placePart] at h
  -- a start that is asked for is taken if it lies behind the cursor, else one is computed
  split at h
  · next hs =>
    have hmax : partStart c sect.toNat p = max (2 * p.start.toNat) (sect.toNat + c.sectors) :=
      if_pos hs
    have hdouble : (p.start * 2).toNat = 2 * p.start.toNat := toNat_mul_two (by omega)
    split at h
    · cases h
    · next hge =>
      have hge' : sect.toNat + c.sectors ≤ 2 * p.start.toNat := by
        rw [← hsect, ← hdouble]
        exact UInt64.le_iff_toNat_le.mp (UInt64.not_lt.mp hge)
      have hstart : partStart c sect.toNat p = 2 * p.start.toNat := by
        rw [hmax, max_eq_left hge']
      obtain rfl := Option.some.inj h
      exact ⟨hdouble.trans hstart.symm, hpair _ (hdouble.trans hstart.symm), fun _ => hstart⟩
  · next hs =>
    have hauto : partStart c sect.toNat p = alignKb c (sect.toNat + c.sectors) := if_neg hs
    have hstart : ∀ start : UInt64, start.toNat = alignKb c (sect.toNat + c.sectors) →
        start.toNat = partStart c sect.toNat p := fun _ hst => hst.trans hauto.symm
    split at h
    · next hk =>
      have hk' : 0 < c.kbAlign := by
        have hnonneg := hc.kbAlign_nonneg
        omega
      have hround : (roundToKb c (sect + UInt64.ofNat c.sectors)).toNat
          = alignKb c (sect.toNat + c.sectors) := by
        have hpos := c.sectors_pos
        rw [← hsect]
        exact toNat_roundToKb hk' (by omega) (by rw [hsect]; omega)
      have hend := hpair _ (hstart _ hround)
      rw [if_neg hk] at hend
      obtain rfl := Option.some.inj h
      exact ⟨hstart _ hround, hend, fun h0 => absurd h0 hs⟩
    · next hk =>
      have hplain : (sect + UInt64.ofNat c.sectors).toNat
          = alignKb c (sect.toNat + c.sectors) := by
        rw [hsect, alignKb, if_pos (not_not.mp hk)]
      obtain rfl := Option.some.inj h
      exact ⟨hstart _ hplain, hpair _ (hstart _ hplain), fun h0 => absurd h0 hs⟩

/-! ### All partitions -/

/-- The partitions from index `i` on that get an entry, with their indices. -/
def requestedFrom (parts : List PartInfo) (i : Nat) : List (PartInfo × Nat) :=
  (parts.zipIdx i).filter fun x => x.1.size ≠ 0

/-- A partition without size is not asked for. -/
private theorem requestedFrom_cons (p : PartInfo) (parts : List PartInfo) (i : Nat) :
    requestedFrom (p :: parts) i =
      if p.size = 0 then requestedFrom parts (i + 1) else (p, i) :: requestedFrom parts (i + 1) := by
  by_cases h : p.size = 0 <;> simp [requestedFrom, h]

/-- The indices go up from the first. -/
private theorem le_of_mem_requestedFrom {parts : List PartInfo} {i : Nat} {x : PartInfo × Nat}
    (h : x ∈ requestedFrom parts i) : i ≤ x.2 :=
  (List.mem_zipIdx (List.mem_filter.mp h).1).1

/-- What the loop leaves behind: the cursor, and an entry for each placed partition. -/
structure Entries (c : Cfg) (guid : Guid) (run : List (Placer.Placed (PartInfo × Nat)))
    (gpte gpte' : Nat → Gpte) : Prop where
  entry : ∀ x ∈ run, ∃ start sect : UInt64, start.toNat = x.start ∧ sect.toNat = x.next ∧
    gpte' x.item.2 = partEntry c guid x.item.2 x.item.1 start sect
  asked : ∀ x ∈ run, x.item.1.start ≠ 0 → x.start = 2 * x.item.1.start.toNat
  other : ∀ i, (∀ x ∈ run, x.item.2 ≠ i) → gpte' i = gpte i

/-- The loop places partitions as over the natural numbers. -/
theorem genEntries_exact {c : Cfg} (hc : Exact c) {guid : Guid} {parts : List PartInfo} {i : Nat}
    {sect sect' : UInt64} {gpte gpte' : Nat → Gpte}
    (h : genEntries c guid parts i sect gpte = some (sect', gpte'))
    (hb : (placer c hc.kbAlign_nonneg).stop sect.toNat (requestedFrom parts i) < 2 ^ 63) :
    sect'.toNat = (placer c hc.kbAlign_nonneg).stop sect.toNat (requestedFrom parts i) ∧
      Entries c guid ((placer c hc.kbAlign_nonneg).run sect.toNat (requestedFrom parts i))
        gpte gpte' := by
  -- a part of size 0 is passed over, the others are placed at the cursor
  induction parts generalizing i sect gpte with
  | nil =>
    obtain ⟨rfl, rfl⟩ := Prod.mk.inj (Option.some.inj h)
    refine ⟨rfl, ?_, ?_, fun _ _ => rfl⟩
    · intro x hx
      cases hx
    · intro x hx
      cases hx
  | cons p parts ih =>
    rw [requestedFrom_cons] at hb ⊢
    rw [genEntries] at h
    by_cases hsize : p.size = 0
    · rw [if_pos hsize] at h hb ⊢
      split at h
      · exact ih h hb
      · cases h
    · rw [if_neg hsize] at h hb ⊢
      cases hplace : placePart c sect p with
      | none =>
        rw [hplace] at h
        cases h
      | some r =>
        rw [hplace] at h
        rw [Placer.stop] at hb ⊢
        have hnext : partNext c sect.toNat p < 2 ^ 63 :=
          Nat.lt_of_le_of_lt (Placer.le_stop _ _ _) hb
        obtain ⟨hstart, hend, hasked⟩ := placePart_exact hc hplace hnext
        -- the cursor behind the first partition is where the others start
        have hcur : (placer c hc.kbAlign_nonneg).next sect.toNat (p, i) = r.2.toNat := hend.symm
        rw [hcur] at hb
        obtain ⟨hstop, hrest⟩ := ih h hb
        rw [Placer.run, hcur]
        refine ⟨hstop, ?_, ?_, ?_⟩
        · intro x hx
          rcases List.mem_cons.mp hx with rfl | hx
          · refine ⟨r.1, r.2, hstart, rfl, ?_⟩
            -- Later partitions have larger indices.
            rw [hrest.other i]
            · exact Function.update_self ..
            · intro y hy hyi
              have hmem : y.item ∈ requestedFrom parts (i + 1) := by
                have hmap := List.mem_map_of_mem (f := Placer.Placed.item) hy
                rwa [Placer.map_item_run] at hmap
              have hle := le_of_mem_requestedFrom hmem
              omega
          · exact hrest.entry x hx
        · intro x hx
          rcases List.mem_cons.mp hx with rfl | hx
          · exact hasked
          · exact hrest.asked x hx
        · intro j hj
          rw [hrest.other j fun x hx => hj x (List.mem_cons_of_mem _ hx)]
          exact Function.update_of_ne (hj _ List.mem_cons_self).symm ..

end HandsomeMod.Native.Ptgen
