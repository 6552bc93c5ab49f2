import HandsomeMod.Spec.MapcalcDisjoint

/-!
# MAP-E and MAP-T: port sets

A PSID stands for the ports that have it behind their first `offset` bits, which must not all be
zero. The ranges that `mapcalc` prints in `PORTSETS` list exactly these ports, in ascending order,
and the port sets of all PSIDs partition the ports from `2 ^ (16 - offset)` on.
-/

namespace HandsomeMod.Native.Mapcalc

open ForStd

/-! ### The ports of a PSID -/

/-- The ports of a PSID. -/
def psidPorts (offset psidlen psid : Nat) : Set Nat :=
  { p | 1 ≤ p ∧ p ≤ 65535 ∧ p / 2 ^ (16 - offset - psidlen) % 2 ^ psidlen = psid ∧
      (0 < offset → p / 2 ^ (16 - offset) ≠ 0) }

/-- The ports that a list of ranges covers. -/
def portsOf (ranges : List (Nat × Nat)) : Set Nat := { p | ∃ r ∈ ranges, r.1 ≤ p ∧ p ≤ r.2 }

/-- The ranges list the ports of a PSID. -/
structure PortSet (offset psidlen psid : Nat) (ranges : List (Nat × Nat)) : Prop where
  ascending : ranges.Pairwise fun r r' => r.2 < r'.1
  bounds : ∀ r ∈ ranges, 1 ≤ r.1 ∧ r.1 ≤ r.2 ∧ r.2 ≤ 65535
  ports : portsOf ranges = psidPorts offset psidlen psid

/-- Ranges that ascend are disjoint. -/
theorem PortSet.disjoint {offset psidlen psid : Nat} {ranges : List (Nat × Nat)}
    (h : PortSet offset psidlen psid ranges) :
    ranges.Pairwise fun r r' => Disjoint (Set.Icc r.1 r.2) (Set.Icc r'.1 r'.2) := by
  refine h.ascending.imp fun {r r'} hlt => Set.disjoint_left.mpr fun p hp hp' => ?_
  have hle := hp.2
  have hge := hp'.1
  omega

/-! ### The loop -/

variable {offset psidlen psid : Nat}

/-- The turns of the loop over the ranges. -/
private theorem mem_turns {k : Nat} :
    k ∈ List.range' (if offset = 0 then 0 else 1)
        ((1 <<< offset) - (if offset = 0 then 0 else 1)) ↔
      (0 < offset → k ≠ 0) ∧ k < 2 ^ offset := by
  have hpos := Nat.two_pow_pos offset
  rw [List.mem_range'_1, Nat.shiftLeft_eq, Nat.one_mul]
  split <;> omega

/-- A port is behind the first `offset` bits `k` if the block of ports is. -/
private theorem div_turn (hoff : offset + psidlen ≤ 16) (p : Nat) :
    p / 2 ^ (16 - offset - psidlen) / 2 ^ psidlen = p / 2 ^ (16 - offset) := by
  rw [Nat.div_div_eq_div_mul, ← Nat.pow_add]
  congr 2
  omega

/-- A range is not empty and inside of its block. -/
private theorem portRange_bounds (hoff : offset + psidlen ≤ 16) (hpsid : psid < 2 ^ psidlen)
    {k : Nat}
    (hk : k < 2 ^ offset) {r : Nat × Nat}
    (hr : portRange offset psidlen (psid * 2 ^ (16 - psidlen)) k = some r) :
    1 ≤ r.1 ∧ r.1 ≤ r.2 ∧ r.2 ≤ 65535 ∧
      (k * 2 ^ psidlen + psid) * 2 ^ (16 - offset - psidlen) ≤ r.1 ∧
      r.2 < (k * 2 ^ psidlen + psid + 1) * 2 ^ (16 - offset - psidlen) := by
  -- the last block ends with port 65535
  have hlast : (k * 2 ^ psidlen + psid + 1) * 2 ^ (16 - offset - psidlen) ≤ 2 ^ 16 := by
    have hblocks : k * 2 ^ psidlen + psid + 1 ≤ 2 ^ (offset + psidlen) := by
      have hturn : (k + 1) * 2 ^ psidlen ≤ 2 ^ offset * 2 ^ psidlen := Nat.mul_le_mul_right _ hk
      rw [Nat.pow_add]
      rw [Nat.succ_mul] at hturn
      omega
    calc (k * 2 ^ psidlen + psid + 1) * 2 ^ (16 - offset - psidlen)
        ≤ 2 ^ (offset + psidlen) * 2 ^ (16 - offset - psidlen) := Nat.mul_le_mul_right _ hblocks
      _ = 2 ^ 16 := by rw [← Nat.pow_add]; congr 1; omega
  have hblock := Nat.two_pow_pos (16 - offset - psidlen)
  rw [portRange_eq hoff hpsid] at hr
  simp only [Option.ite_none_right_eq_some] at hr
  obtain ⟨hle, hr⟩ := hr
  obtain rfl := Option.some.inj hr
  rw [Nat.succ_mul] at hlast ⊢
  simp only
  generalize (k * 2 ^ psidlen + psid) * 2 ^ (16 - offset - psidlen) = start at hle hlast ⊢
  by_cases hzero : start = 0
  · rw [if_pos hzero] at hle ⊢
    omega
  · rw [if_neg hzero] at hle ⊢
    omega

/-- A port of the PSID is in the range of its turn. -/
private theorem exists_portRange (hoff : offset + psidlen ≤ 16) (hpsid : psid < 2 ^ psidlen)
    {p k : Nat}
    (hp : 1 ≤ p) (hdiv : p / 2 ^ (16 - offset - psidlen) = k * 2 ^ psidlen + psid) :
    ∃ r, portRange offset psidlen (psid * 2 ^ (16 - psidlen)) k = some r := by
  have hblock := Nat.two_pow_pos (16 - offset - psidlen)
  rw [Nat.div_eq_iff hblock] at hdiv
  rw [portRange_eq hoff hpsid]
  simp only
  rw [if_pos (by split <;> omega)]
  exact ⟨_, rfl⟩

/-- The ranges of `PORTSETS` list the ports of their PSID. -/
theorem portRanges_portSet (hoff : offset + psidlen ≤ 16) (hpsid : psid < 2 ^ psidlen) :
    PortSet offset psidlen psid (portRanges offset psidlen (psid * 2 ^ (16 - psidlen))) := by
  constructor
  · -- later turns take later blocks
    rw [portRanges, List.pairwise_filterMap]
    refine List.Pairwise.imp_of_mem ?_ (List.pairwise_lt_range' 1)
    intro k k' hk hk' hlt r hr r' hr'
    have hend := (portRange_bounds hoff hpsid (mem_turns.mp hk).2 hr).2.2.2.2
    have hstart := (portRange_bounds hoff hpsid (mem_turns.mp hk').2 hr').2.2.2.1
    have hstep : (k * 2 ^ psidlen + psid + 1) * 2 ^ (16 - offset - psidlen) ≤
        (k' * 2 ^ psidlen + psid) * 2 ^ (16 - offset - psidlen) := by
      refine Nat.mul_le_mul_right _ ?_
      have hblocks : (k + 1) * 2 ^ psidlen ≤ k' * 2 ^ psidlen := Nat.mul_le_mul_right _ hlt
      rw [Nat.succ_mul] at hblocks
      omega
    omega
  -- each range lies above port 0 and below 2 ^ 16
  · intro r hr
    obtain ⟨k, hk, hr⟩ := List.mem_filterMap.mp hr
    obtain ⟨hone, hle, hmax, -⟩ := portRange_bounds hoff hpsid (mem_turns.mp hk).2 hr
    exact ⟨hone, hle, hmax⟩
  -- a port is in the range of its own turn, or in none
  · ext p
    constructor
    · rintro ⟨r, hr, hle, hge⟩
      obtain ⟨k, hk, hr⟩ := List.mem_filterMap.mp hr
      obtain ⟨hfirst, hlast⟩ := mem_turns.mp hk
      obtain ⟨-, -, hmax, -⟩ := portRange_bounds hoff hpsid hlast hr
      obtain ⟨hone, hdiv⟩ := (mem_portRange_iff hoff hpsid hr).mp ⟨hle, hge⟩
      refine ⟨hone, by omega, psid_of_mem_portRange hoff hpsid hr hle hge, fun hpos => ?_⟩
      rw [← div_turn hoff, hdiv, Nat.mul_comm, Nat.mul_add_div (Nat.two_pow_pos _),
        Nat.div_eq_of_lt hpsid]
      simpa using hfirst hpos
    · rintro ⟨hone, hmax, hmod, hfirst⟩
      -- the turn is the number in the first `offset` bits
      have hdiv : p / 2 ^ (16 - offset - psidlen) =
          p / 2 ^ (16 - offset) * 2 ^ psidlen + psid := by
        rw [← div_turn hoff, ← hmod, Nat.div_add_mod']
      have hturn : p / 2 ^ (16 - offset) < 2 ^ offset := by
        refine Nat.div_lt_of_lt_mul ?_
        rw [← Nat.pow_add, show 16 - offset + offset = 16 by omega]
        omega
      obtain ⟨r, hr⟩ := exists_portRange hoff hpsid hone hdiv
      refine ⟨r, List.mem_filterMap.mpr ⟨_, mem_turns.mpr ⟨hfirst, hturn⟩, hr⟩, ?_⟩
      exact (mem_portRange_iff hoff hpsid hr).mpr ⟨hone, hdiv⟩

/-! ### All PSIDs -/

/-- The ports of different PSIDs are disjoint. -/
theorem psidPorts_disjoint (offset psidlen : Nat) {psid psid' : Nat} (hne : psid ≠ psid') :
    Disjoint (psidPorts offset psidlen psid) (psidPorts offset psidlen psid') := by
  rw [Set.disjoint_left]
  rintro p ⟨-, -, h, -⟩ ⟨-, -, h', -⟩
  exact hne (h.symm.trans h')

/-- Every port whose first bits are not all zero has a PSID. -/
theorem iUnion_psidPorts (offset psidlen : Nat) :
    (⋃ psid < 2 ^ psidlen, psidPorts offset psidlen psid) =
      Set.Icc (if offset = 0 then 1 else 2 ^ (16 - offset)) 65535 := by
  ext p
  simp only [Set.mem_iUnion, Set.mem_Icc]
  have hpow := Nat.two_pow_pos (16 - offset)
  have hhigh : p / 2 ^ (16 - offset) ≠ 0 ↔ 2 ^ (16 - offset) ≤ p := by
    rw [Nat.div_ne_zero_iff]
    omega
  constructor
  · rintro ⟨psid, -, hone, hmax, -, hfirst⟩
    refine ⟨?_, hmax⟩
    split
    · exact hone
    · exact hhigh.mp (hfirst (by omega))
  -- a port's PSID is read off its own bits
  · rintro ⟨hmin, hmax⟩
    refine ⟨_, Nat.mod_lt _ (Nat.two_pow_pos _), ?_, hmax, rfl, fun hpos => ?_⟩
    · split at hmin <;> omega
    · rw [if_neg (by omega)] at hmin
      exact hhigh.mpr hmin

/-! ### What is printed -/

/-- The word that holds the PSID in its first bits has 16 bits. -/
theorem readPsid_lt (e : Endian) {r : Rule} (hpsid : r.psid ≤ 65535) :
    (readPsid e r).2 < 2 ^ 16 := by
  rw [readPsid]
  split
  · have hlt := loadBE_lt 2 (bmemcpys64 e zeros r.pd (sizeT (r.prefix6len + r.ealen - r.psidlen))
      (sizeT r.psidlen))
    simp only
    rw [beToCpu_load]
    omega
  · simp only
    omega

/-- `PORTSETS` is printed for the PSID in the first bits of the word. -/
theorem evalRule_portsets {env : Env} {r : Rule} {iface : String} {o : Output}
    (ho : evalRule env r iface = some o) (hlen : r.psidlen = psidlen) (hk : 0 < psidlen)
    (hle : psidlen ≤ 16) {word : Nat} (hword : (readPsid env.endian r).2 = word) :
    o.portsets = some (portRanges r.offset.toNat psidlen
      (word / 2 ^ (16 - psidlen) * 2 ^ (16 - psidlen))) := by
  -- the bits behind the PSID are cleared
  have halign : (alignPsid env.endian r.psidlen (readPsid env.endian r).1
      (readPsid env.endian r).2).2 = ((word / 2 ^ (16 - psidlen) * 2 ^ (16 - psidlen) : Nat) : Int) := by
    have hsub : ((16 : Int) - (psidlen : Int)).toNat = 16 - psidlen := by omega
    rw [alignPsid, hlen, if_pos (by omega), hsub, hword, ← Nat.shiftRight_eq_div_pow]
    push_cast
    rfl
  unfold evalRule at ho
  simp only at ho
  split at ho
  · cases ho
  · cases ho
    simp only
    rw [halign, hlen, if_pos ⟨by omega, by omega⟩, Int.toNat_natCast, Int.toNat_natCast]

/-- `PORTSETS` lists the ports of the PSID, and the port sets of all PSIDs partition the ports from
    `2 ^ (16 - offset)` on, without port 0. -/
theorem portsets_partition {offset psidlen : Nat} (hk : 0 < psidlen)
    (hoff : offset + psidlen ≤ 16) :
    (∀ (env : Env) (r : Rule) (iface : String) (o : Output) (word : Nat),
      evalRule env r iface = some o → r.offset = offset → r.psidlen = psidlen → r.psid ≤ 65535 →
        (readPsid env.endian r).2 = word →
          ∃ ranges, o.portsets = some ranges ∧
            PortSet offset psidlen (word / 2 ^ (16 - psidlen)) ranges) ∧
    (∀ psid < 2 ^ psidlen,
      PortSet offset psidlen psid (portRanges offset psidlen (psid * 2 ^ (16 - psidlen)))) ∧
    (∀ psid psid' : Nat, psid ≠ psid' →
      Disjoint (psidPorts offset psidlen psid) (psidPorts offset psidlen psid')) ∧
    (⋃ psid < 2 ^ psidlen, psidPorts offset psidlen psid) =
      Set.Icc (if offset = 0 then 1 else 2 ^ (16 - offset)) 65535 := by
  refine ⟨fun env r iface o word ho hoffset hlen hpsid hword => ?_,
    fun psid hpsid => portRanges_portSet hoff hpsid, fun psid psid' => psidPorts_disjoint _ _,
    iUnion_psidPorts _ _⟩
  have hlt := readPsid_lt env.endian hpsid
  refine ⟨_, evalRule_portsets ho hlen hk (by omega) hword, ?_⟩
  rw [hoffset, Int.toNat_natCast]
  refine portRanges_portSet hoff (Nat.div_lt_of_lt_mul ?_)
  rw [← Nat.pow_add, show 16 - psidlen + psidlen = 16 by omega]
  omega

/-- The defaults of MAP with 256 sharers. -/
theorem portsets_partition_sample :
    PortSet 6 8 0x34 (portRanges 6 8 (0x34 * 2 ^ 8)) ∧
      (⋃ psid < 2 ^ 8, psidPorts 6 8 psid) = Set.Icc 1024 65535 :=
  have h := @portsets_partition 6 8 (by decide) (by decide)
  ⟨h.2.1 0x34 (by decide), h.2.2.2⟩

/-- The offset of an evaluated rule is not negative. -/
private theorem setDefaults_offset_nonneg (legacy : Bool) (r : Rule) :
    0 ≤ (setDefaults legacy r).offset := by
  unfold setDefaults
  simp only
  split
  · split
    · simp
    · simp only
      repeat' split
      all_goals decide
  · split
    · simp only
      omega
    · omega

/-- A PSID of 16 bits stays one. -/
private theorem deriveLengths_psid_le {r : Rule} (h : r.psid ≤ 65535) :
    (deriveLengths r).psid ≤ 65535 := by
  unfold deriveLengths
  simp only
  repeat' split
  all_goals simp_all

/-- The PSID has no default. -/
theorem setDefaults_psid (legacy : Bool) (r : Rule) : (setDefaults legacy r).psid = r.psid := by
  unfold setDefaults
  simp only
  repeat' split
  all_goals rfl

/-- `PORTSETS` is printed only for a PSID. -/
private theorem evalRule_portsets_some {env : Env} {r : Rule} {iface : String} {o : Output}
    {ranges : List (Nat × Nat)} (ho : evalRule env r iface = some o)
    (hp : o.portsets = some ranges) : 0 < r.psidlen ∧ 0 ≤ (readPsid env.endian r).2 := by
  unfold evalRule at ho
  simp only at ho
  split at ho
  · cases ho
  · cases ho
    simp only [Option.ite_none_right_eq_some] at hp
    obtain ⟨⟨hk, halign⟩, -⟩ := hp
    refine ⟨hk, ?_⟩
    rw [alignPsid, if_pos hk] at halign
    -- the shifts keep the sign
    have hshift : 0 ≤ (readPsid env.endian r).2 >>> (16 - r.psidlen).toNat :=
      nonneg_of_mul_nonneg_left halign (by positivity)
    rw [Int.shiftRight_eq_div_pow] at hshift
    exact (Int.ediv_nonneg_iff_of_pos (by positivity)).mp hshift

/-- Every `PORTSETS` line lists the ports of a PSID. -/
theorem calcRule_portsets {env : Env} {opts : List Opt} {iface iface' : String} {o : Output}
    {ranges : List (Nat × Nat)}
    (h : calcRule env (parseRule opts) iface = (some o, iface')) (hp : o.portsets = some ranges)
    (hoff : o.offset + o.psidlen ≤ 16) :
    ∃ psid < 2 ^ o.psidlen.toNat, PortSet o.offset.toNat o.psidlen.toNat psid ranges := by
  obtain ⟨r, hsame, -, ho⟩ := calcRule_spec h
  obtain ⟨-, hlen, hoffset, -⟩ := evalRule_fields ho
  obtain ⟨-, -, hframe, -⟩ := deriveLengths_frame r
  obtain ⟨hk, hnonneg⟩ := evalRule_portsets_some ho hp
  have hfirst : 0 ≤ r.offset := by
    rw [hsame]
    exact setDefaults_offset_nonneg _ _
  -- a PSID that was given is bounded by its option, one that was read by its length
  have hpsid : (deriveLengths r).psid ≤ 65535 := by
    refine deriveLengths_psid_le ?_
    rw [hsame]
    show (setDefaults env.legacy (parseRule opts)).psid ≤ 65535
    rw [setDefaults_psid]
    exact parseRule_bounded opts .psid
  have hlt := readPsid_lt env.endian hpsid
  obtain ⟨word, hword⟩ := Int.eq_ofNat_of_zero_le hnonneg
  have hlen' : (deriveLengths r).psidlen = (o.psidlen.toNat : Nat) := by omega
  have hports := evalRule_portsets ho hlen' (by omega) (by omega) hword
  obtain rfl := Option.some.inj (hp.symm.trans hports)
  have hdiv : word / 2 ^ (16 - o.psidlen.toNat) < 2 ^ o.psidlen.toNat := by
    refine Nat.div_lt_of_lt_mul ?_
    rw [← Nat.pow_add, show 16 - o.psidlen.toNat + o.psidlen.toNat = 16 by omega]
    omega
  refine ⟨_, hdiv, ?_⟩
  rw [hoffset]
  exact portRanges_portSet (by omega) hdiv

end HandsomeMod.Native.Mapcalc
