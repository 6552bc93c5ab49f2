import HandsomeMod.Spec.MapcalcBits

/-!
# MAP-E and MAP-T: no address and port for two delegated prefixes

The embedded address bits of a delegated prefix go to the IPv4 address first and to the PSID then.
Two prefixes under one rule that differ in them get different IPv4 prefixes, or PSIDs that no port
has both of.
-/

namespace HandsomeMod.Native.Mapcalc

open ForStd

/-! ### What an output assigns -/

/-- Port `p` is in `PORTSETS`; every port is where there is no such line. -/
def Output.HasPort (o : Output) (p : Nat) : Prop :=
  match o.portsets with
  | some ranges => ∃ r ∈ ranges, r.1 ≤ p ∧ p ≤ r.2
  | none => p < 2 ^ 16

/-- The address `a` has the first `addr4len` bits of `ipv4addr`. -/
def Output.HasAddr (o : Output) (a : UInt32) : Prop :=
  ∀ i : Nat, i < o.addr4len → a.toNat.testBit (31 - i) = bit o.ipv4addr i

/-- The pairs of IPv4 address and port that an output assigns. The address counts also where it is
    0.0.0.0 and not printed. -/
def Output.assigned (o : Output) : Set (UInt32 × Nat) :=
  { ap | o.HasAddr ap.1 ∧ o.HasPort ap.2 }

/-- The embedded address bits are bits `prefix6len` to `prefix6len + ealen - 1`. -/
def DifferInEaBits (o o' : Output) : Prop :=
  ∃ i : Nat, o.prefix6len ≤ i ∧ i < o.prefix6len + o.ealen ∧ bit o.pd i ≠ bit o'.pd i

/-! ### Port ranges -/

/-- A turn of the loop takes one whole block of ports, port 0 left out. -/
theorem portRange_eq {offset psidlen psid : Nat} (hoff : offset + psidlen ≤ 16)
    (hpsid : psid < 2 ^ psidlen) (k : Nat) :
    portRange offset psidlen (psid * 2 ^ (16 - psidlen)) k =
      let start := (k * 2 ^ psidlen + psid) * 2 ^ (16 - offset - psidlen)
      let stop := start + 2 ^ (16 - offset - psidlen) - 1
      if (if start = 0 then 1 else start) ≤ stop then
        some (if start = 0 then 1 else start, stop) else none := by
  have hpow : 2 ^ (16 - psidlen) = 2 ^ (16 - offset - psidlen) * 2 ^ offset := by
    rw [← Nat.pow_add]
    congr 1
    omega
  have hpow' : 2 ^ (16 - offset) = 2 ^ psidlen * 2 ^ (16 - offset - psidlen) := by
    rw [← Nat.pow_add]
    congr 1
    omega
  -- the PSID sits below the offset bits, so `|` adds the index in front of it
  have hshift : (psid * 2 ^ (16 - psidlen)) >>> offset = psid * 2 ^ (16 - offset - psidlen) := by
    rw [Nat.shiftRight_eq_div_pow, hpow, ← Nat.mul_assoc, Nat.mul_div_cancel _ (Nat.two_pow_pos _)]
  have hsmall : psid * 2 ^ (16 - offset - psidlen) < 2 ^ (16 - offset) := by
    rw [hpow']
    exact Nat.mul_lt_mul_of_pos_right hpsid (Nat.two_pow_pos _)
  have hstart : (k <<< (16 - offset)) ||| (psid * 2 ^ (16 - offset - psidlen)) =
      (k * 2 ^ psidlen + psid) * 2 ^ (16 - offset - psidlen) := by
    rw [← Nat.shiftLeft_add_eq_or_of_lt hsmall, Nat.shiftLeft_eq, hpow', Nat.add_mul, Nat.mul_assoc]
  simp only [portRange, hshift, hstart]
  simp only [Nat.shiftLeft_eq, Nat.one_mul]

/-- The ports of a range are those of its block. -/
theorem mem_portRange_iff {offset psidlen p k : Nat} {psid : Nat} {r : Nat × Nat}
    (hoff : offset + psidlen ≤ 16) (hpsid : psid < 2 ^ psidlen)
    (hr : portRange offset psidlen (psid * 2 ^ (16 - psidlen)) k = some r) :
    r.1 ≤ p ∧ p ≤ r.2 ↔
      1 ≤ p ∧ p / 2 ^ (16 - offset - psidlen) = k * 2 ^ psidlen + psid := by
  have hblock := Nat.two_pow_pos (16 - offset - psidlen)
  rw [portRange_eq hoff hpsid] at hr
  simp only [Option.ite_none_right_eq_some] at hr
  obtain rfl := Option.some.inj hr.2
  rw [Nat.div_eq_iff hblock]
  simp only
  split <;> omega

/-- A port of a range has the PSID behind its first `offset` bits. -/
theorem psid_of_mem_portRange {offset psidlen p k : Nat} {psid : Nat} {r : Nat × Nat}
    (hoff : offset + psidlen ≤ 16) (hpsid : psid < 2 ^ psidlen)
    (hr : portRange offset psidlen (psid * 2 ^ (16 - psidlen)) k = some r)
    (hle : r.1 ≤ p) (hge : p ≤ r.2) : p / 2 ^ (16 - offset - psidlen) % 2 ^ psidlen = psid := by
  obtain ⟨-, hdiv⟩ := (mem_portRange_iff hoff hpsid hr).mp ⟨hle, hge⟩
  rw [hdiv, Nat.mul_comm, Nat.mul_add_mod, Nat.mod_eq_of_lt hpsid]

/-- A port of the ranges has the PSID in its middle bits. -/
private theorem psid_of_mem_portRanges {offset psidlen p : Nat} {psid : Nat} {r : Nat × Nat}
    (hoff : offset + psidlen ≤ 16) (hpsid : psid < 2 ^ psidlen)
    (hr : r ∈ portRanges offset psidlen (psid * 2 ^ (16 - psidlen)))
    (hle : r.1 ≤ p) (hge : p ≤ r.2) : p / 2 ^ (16 - offset - psidlen) % 2 ^ psidlen = psid := by
  obtain ⟨k, -, hk⟩ := List.mem_filterMap.mp hr
  exact psid_of_mem_portRange hoff hpsid hk hle hge

/-! ### The address and the PSID of an accepted rule -/

/-- A length fits a `size_t`. -/
private theorem sizeT_natCast {n : Nat} (h : n < 2 ^ 64) : sizeT n = n := by
  rw [sizeT, Int.emod_eq_of_lt (by omega) (by omega), Int.toNat_natCast]

/-- A rule that was not skipped: its lengths as natural numbers, `psidlen` being derived. -/
structure Lengths (r : Rule) (p4 p6 ea k : Nat) : Prop where
  prefix4len : r.prefix4len = p4
  prefix6len : r.prefix6len = p6
  ealen : r.ealen = ea
  psidlen : r.psidlen = k
  psid : r.psid = -1
  pdlen : 0 ≤ r.pdlen
  p4_le : p4 ≤ 32
  p6_le : p6 ≤ 128
  k_le : k ≤ 16
  derived : k = ea - (32 - p4)

/-- The suffix of the IPv4 address is the first part of the embedded address bits. -/
private theorem bit_calcIpv4addr (e : Endian) {r : Rule} {p4 p6 ea k : Nat}
    (h : Lengths r p4 p6 ea k)
    {i : Nat} (hi : i < ea - k) :
    bit (calcIpv4addr e r).1 (p4 + i) = bit r.pd (p6 + i) := by
  have hd := h.derived
  have h4 := h.p4_le
  have h6 := h.p6_le
  have hk := h.k_le
  have hsub : r.ealen - r.psidlen = ((ea - k : Nat) : Int) := by
    rw [h.ealen, h.psidlen]
    omega
  -- the EA bits are shifted behind the IPv4 prefix, so bit `i` of them is read at the end of the
  -- IPv6 prefix
  rw [calcIpv4addr, if_pos (Or.inl h.pdlen), h.prefix4len, h.prefix6len, hsub,
    sizeT_natCast (by omega), sizeT_natCast (by omega), sizeT_natCast (by omega),
    Int.toNat_natCast, bit_bmemcpy, if_neg (by omega), bit_memcpyAt_store e _ _ (by omega),
    beToCpu_load, Nat.testBit_shiftRight, testBit_loadBE, decide_eq_true (by omega),
    Bool.true_and, bit_bmemcpys64 e _ _ _ (by omega), if_pos (by omega)]
  congr 1
  omega

/-- The length of the IPv4 address or prefix. -/
private theorem addr4len_calcIpv4addr (e : Endian) {r : Rule} {p4 p6 ea k : Nat}
    (h : Lengths r p4 p6 ea k) : (calcIpv4addr e r).2 = ((min 32 (p4 + ea) : Nat) : Int) := by
  rw [calcIpv4addr, if_pos (Or.inl h.pdlen), h.prefix4len, h.ealen]
  simp only
  split <;> omega

/-- The PSID, as a number of `k` bits. -/
def psidOf (e : Endian) (r : Rule) (p6 ea k : Nat) : Nat :=
  loadBE 2 (bmemcpys64 e zeros r.pd (p6 + ea - k) k) >>> (16 - k)

/-- The PSID has `psidlen` bits. -/
private theorem psidOf_lt (e : Endian) (r : Rule) (p6 ea : Nat) {k : Nat} (hk : k ≤ 16) :
    psidOf e r p6 ea k < 2 ^ k := by
  have h := loadBE_lt 2 (bmemcpys64 e zeros r.pd (p6 + ea - k) k)
  rw [psidOf, Nat.shiftRight_eq_div_pow]
  refine Nat.div_lt_of_lt_mul ?_
  rwa [← Nat.pow_add, show 16 - k + k = 8 * 2 by omega]

/-- The PSID is the last part of the embedded address bits. -/
private theorem testBit_psidOf (e : Endian) {r : Rule} {p4 p6 ea k : Nat} (h : Lengths r p4 p6 ea k)
    {j : Nat} (hj : j < k) :
    (psidOf e r p6 ea k).testBit (k - 1 - j) = bit r.pd (p6 + ea - k + j) := by
  have hk := h.k_le
  rw [psidOf, Nat.testBit_shiftRight, testBit_loadBE, decide_eq_true (by omega), Bool.true_and,
    show 8 * 2 - 1 - (16 - k + (k - 1 - j)) = j by omega, bit_bmemcpys64 e _ _ _ (by omega),
    if_pos hj]

/-- With a PSID the address is complete and the ports are those of the PSID. -/
theorem evalRule_spec {env : Env} {r : Rule} {iface : String} {o : Output} {p4 p6 ea k : Nat}
    (h : Lengths r p4 p6 ea k) (ho : evalRule env r iface = some o) :
    o.ipv4addr = (calcIpv4addr env.endian r).1 ∧ o.addr4len = ((min 32 (p4 + ea) : Nat) : Int) ∧
      (0 < k → o.portsets = some (portRanges r.offset.toNat k
        (psidOf env.endian r p6 ea k * 2 ^ (16 - k)))) := by
  have hd := h.derived
  have h6 := h.p6_le
  have hk := h.k_le
  have hlen := h.pdlen
  unfold evalRule at ho
  simp only at ho
  split at ho
  · cases ho
  · cases ho
    refine ⟨rfl, addr4len_calcIpv4addr env.endian h, fun hpos => ?_⟩
    have hfrom : r.prefix6len + r.ealen - r.psidlen = ((p6 + ea - k : Nat) : Int) := by
      rw [h.prefix6len, h.ealen, h.psidlen]
      omega
    have hsub : ((16 : Int) - (k : Int)).toNat = 16 - k := by omega
    -- the PSID is read from the end of the EA bits of the prefix
    have hread : readPsid env.endian r = (bmemcpys64 env.endian zeros r.pd (p6 + ea - k) k,
        (loadBE 2 (bmemcpys64 env.endian zeros r.pd (p6 + ea - k) k) : Int)) := by
      have hcond : r.psid < 0 ∧ r.psidlen ≥ 0 ∧ r.pdlen ≥ 0 :=
        ⟨by rw [h.psid]; decide, by rw [h.psidlen]; omega, hlen⟩
      rw [readPsid, if_pos hcond, hfrom, h.psidlen, sizeT_natCast (by omega),
        sizeT_natCast (by omega)]
      simp only
      rw [beToCpu_load]
    have hpsid : (alignPsid env.endian r.psidlen (readPsid env.endian r).1
        (readPsid env.endian r).2).2 = ((psidOf env.endian r p6 ea k * 2 ^ (16 - k) : Nat) : Int) := by
      rw [hread, alignPsid, h.psidlen, if_pos (by omega), hsub]
      simp only [psidOf]
      push_cast
      rfl
    simp only
    rw [hpsid, h.psidlen, if_pos ⟨by omega, by omega⟩, Int.toNat_natCast, Int.toNat_natCast]

/-! ### From the suboptions to the lengths -/

/-- The variable that a numeric suboption sets. -/
def NumOpt.get (r : Rule) : NumOpt → Int
  | .ealen => r.ealen
  | .prefix4len => r.prefix4len
  | .prefix6len => r.prefix6len
  | .offset => r.offset
  | .psidlen => r.psidlen
  | .pdlen => r.pdlen
  | .psid => r.psid

/-- Every number is at most the limit of its suboption. -/
def Rule.Bounded (r : Rule) : Prop := ∀ idx : NumOpt, idx.get r ≤ idx.limit

/-- A numeric option sets its field only. -/
theorem NumOpt.get_set (r : Rule) (v : Int) (idx idx' : NumOpt) :
    idx'.get (idx.set r v) = if idx' = idx then v else idx'.get r := by
  cases idx <;> cases idx' <;> rfl

/-- An option keeps the bounds of a rule. -/
theorem Rule.Bounded.applyOpt {r : Rule} (h : r.Bounded) (opt : Opt) : (applyOpt r opt).Bounded := by
  cases opt with
  | num idx ul errno =>
    intro idx'
    simp only [Mapcalc.applyOpt]
    split
    · rename_i hul
      rw [NumOpt.get_set]
      split
      -- the number was checked against the bound of its option
      · rename_i heq
        rw [heq]
        exact hul.1
      · exact h idx'
    · exact h idx'
  | _ => intro idx; cases idx <;> exact h _

/-- A parsed rule keeps to its bounds. -/
theorem parseRule_bounded (opts : List Opt) : (parseRule opts).Bounded := by
  have hinit : ({} : Rule).Bounded := by intro idx; cases idx <;> decide
  have hrun : ∀ r : Rule, r.Bounded → (opts.foldl applyOpt r).Bounded := by
    induction opts with
    | nil => exact fun r h => h
    | cons opt opts ih => exact fun r h => ih _ (h.applyOpt opt)
  exact hrun _ hinit

/-- The rules agree on all but the delegated prefix. -/
def SameRule (r r' : Rule) : Prop := r' = { r with pd := r'.pd, pdlen := r'.pdlen }

/-- Two steps that keep a rule but for its prefix. -/
theorem SameRule.trans {r r' r'' : Rule} (h : SameRule r r') (h' : SameRule r' r'') :
    SameRule r r'' := by
  rw [SameRule] at h h' ⊢
  rw [h'] at *
  rw [h]

/-- A prefix that matches changes the prefix of the rule only. -/
theorem SameRule.matchEntry (r : Rule) (entry : PrefixEntry) :
    SameRule r (matchEntry r entry) := by
  unfold Mapcalc.matchEntry
  split
  · simp only
    repeat' split
    all_goals rfl
  · rfl

/-- So does a list of prefixes. -/
theorem SameRule.matchPrefix (r : Rule) (cur : Option (List PrefixEntry)) :
    SameRule r (matchPrefix r cur) := by
  rw [Mapcalc.matchPrefix]
  generalize cur.getD [] = entries
  induction entries generalizing r with
  | nil => rfl
  | cons entry entries ih => exact (SameRule.matchEntry r entry).trans (ih _)

/-- So does the search over the interfaces. -/
theorem SameRule.findPd (arg : String) (dump : List Interface) (r : Rule) (iface : String) :
    SameRule r (findPd arg dump r iface).1 := by
  induction dump generalizing r with
  | nil => rfl
  | cons c cs ih =>
    -- matching a prefix sets the delegated prefix and nothing else
    have hmatch : SameRule r (if (Mapcalc.matchPrefix r c.prefixes).lw4o6 then
        Mapcalc.matchPrefix (Mapcalc.matchPrefix r c.prefixes) c.addresses
        else Mapcalc.matchPrefix r c.prefixes) := by
      split
      · exact (SameRule.matchPrefix r _).trans (SameRule.matchPrefix _ _)
      · exact SameRule.matchPrefix r _
    unfold Mapcalc.findPd
    split
    · exact ih r
    · split
      · exact ih r
      · simp only
        generalize (if (Mapcalc.matchPrefix r c.prefixes).lw4o6 then _ else _ : Rule) = r1
          at hmatch ⊢
        split
        · exact hmatch
        · exact hmatch.trans (ih _)

/-- A rule that is not skipped was evaluated on its own values and some delegated prefix. -/
theorem calcRule_spec {env : Env} {r : Rule} {iface iface' : String} {o : Output}
    (h : calcRule env r iface = (some o, iface')) :
    ∃ r', SameRule (setDefaults env.legacy r) r' ∧ isInvalid (deriveLengths r') = false ∧
      evalRule env (deriveLengths r') iface' = some o := by
  simp only [calcRule] at h
  -- the search for a prefix changes the prefix only
  have hpd : SameRule (setDefaults env.legacy r)
      (if (setDefaults env.legacy r).pdlen < 0 then
        findPd env.iface env.dump (setDefaults env.legacy r) iface
        else (setDefaults env.legacy r, iface)).1 := by
    split
    · exact SameRule.findPd ..
    · rfl
  generalize (if (setDefaults env.legacy r).pdlen < 0 then _ else _ : Rule × String) = found
    at h hpd
  split at h
  · cases (Prod.mk.inj h).1
  · rename_i hvalid
    obtain ⟨ho, rfl⟩ := Prod.mk.inj h
    exact ⟨found.1, hpd, by simpa using hvalid, ho⟩

/-- Deriving the lengths keeps prefixes and offset. -/
theorem deriveLengths_frame (r : Rule) :
    (deriveLengths r).prefix4len = r.prefix4len ∧ (deriveLengths r).prefix6len = r.prefix6len ∧
      (deriveLengths r).offset = r.offset ∧ (deriveLengths r).pd = r.pd ∧
      (deriveLengths r).pdlen = r.pdlen := by
  unfold deriveLengths
  simp only
  repeat' split
  all_goals exact ⟨rfl, rfl, rfl, rfl, rfl⟩

/-- Without a `psidlen` of its own a rule takes what the address leaves of `ealen`. -/
private theorem deriveLengths_psidlen {r : Rule} (h : r.psidlen ≤ 0) :
    (deriveLengths r).psid = -1 ∧
      (deriveLengths r).psidlen = max 0 ((deriveLengths r).ealen - (32 - r.prefix4len)) := by
  -- the EA length is derived first, and changes neither of the two
  have hstep : ∀ r1 : Rule, r1 = (if r.ealen < 0 ∧ r.pdlen ≥ 0 then
      { r with ealen := r.pdlen - r.prefix6len } else r) →
      r1.psidlen = r.psidlen ∧ r1.prefix4len = r.prefix4len := by
    rintro r1 rfl
    split <;> exact ⟨rfl, rfl⟩
  simp only [deriveLengths]
  generalize hr1 : (if r.ealen < 0 ∧ r.pdlen ≥ 0 then _ else r : Rule) = r1
  obtain ⟨hpsid, h4⟩ := hstep r1 hr1.symm
  rw [if_pos (by omega)]
  refine ⟨rfl, ?_⟩
  simp only
  split <;> omega

/-- Without lw4o6 only the offset has a default. -/
theorem setDefaults_of_not_lw4o6 (legacy : Bool) {r : Rule} (h : r.lw4o6 = false) :
    setDefaults legacy r =
      { r with offset := if r.offset < 0 then if legacy then 4 else 6 else r.offset } := by
  by_cases hneg : r.offset < 0
  · simp [setDefaults, h, hneg]
  · simp only [setDefaults, hneg, h, Bool.false_eq_true, ↓reduceIte]
    rw [← h]

/-- The output has the lengths of the rule. -/
theorem evalRule_fields {env : Env} {r : Rule} {iface : String} {o : Output}
    (ho : evalRule env r iface = some o) :
    o.ealen = r.ealen ∧ o.psidlen = r.psidlen ∧ o.offset = r.offset ∧
      o.prefix6len = r.prefix6len ∧ o.pd = r.pd ∧ o.pdlen = r.pdlen := by
  unfold evalRule at ho
  simp only at ho
  split at ho
  · cases ho
  · cases ho
    exact ⟨rfl, rfl, rfl, rfl, rfl, rfl⟩

/-- What a rule that was not skipped was evaluated on, `psidlen` being derived. -/
structure Evaluated (env : Env) (r : Rule) (o : Output) (r1 : Rule) (p4 p6 ea k : Nat) : Prop where
  lengths : Lengths r1 p4 p6 ea k
  eval : ∃ iface, evalRule env r1 iface = some o
  prefix4len : r1.prefix4len = r.prefix4len
  prefix6len : r1.prefix6len = r.prefix6len
  offset : r1.offset = (setDefaults env.legacy r).offset

/-- A rule with output, in natural numbers. -/
theorem evaluated_of_calcRule {env : Env} {opts : List Opt} {iface iface' : String} {o : Output}
    (h : calcRule env (parseRule opts) iface = (some o, iface'))
    (hlw : (parseRule opts).lw4o6 = false) (hpsid : (parseRule opts).psidlen ≤ 0)
    (hpd : o.prefix6len + o.ealen ≤ o.pdlen) :
    ∃ r1 p4 p6 ea k, Evaluated env (parseRule opts) o r1 p4 p6 ea k := by
  obtain ⟨r, hsame, hvalid, ho⟩ := calcRule_spec h
  have hdef := setDefaults_of_not_lw4o6 env.legacy hlw
  have hb := parseRule_bounded opts
  have hb4 : (parseRule opts).prefix4len ≤ 32 := hb .prefix4len
  have hb6 : (parseRule opts).prefix6len ≤ 128 := hb .prefix6len
  obtain ⟨h4, h6, hoff, -, hlen⟩ := deriveLengths_frame r
  obtain ⟨hea, -, -, hop6, -, hopl⟩ := evalRule_fields ho
  have hr : r.psidlen = (parseRule opts).psidlen ∧ r.prefix4len = (parseRule opts).prefix4len ∧
      r.prefix6len = (parseRule opts).prefix6len ∧
      r.offset = (setDefaults env.legacy (parseRule opts)).offset := by
    rw [hsame, hdef]
    exact ⟨rfl, rfl, rfl, rfl⟩
  obtain ⟨hneg, hk⟩ := deriveLengths_psidlen (r := r) (by omega)
  -- no length of an accepted rule is negative
  have hok : 0 ≤ (deriveLengths r).prefix4len ∧ 0 ≤ (deriveLengths r).prefix6len ∧
      0 ≤ (deriveLengths r).ealen ∧ (deriveLengths r).psidlen ≤ 16 := by
    simp only [isInvalid, Bool.or_eq_false_iff, decide_eq_false_iff_not] at hvalid
    omega
  refine ⟨deriveLengths r, (deriveLengths r).prefix4len.toNat, (deriveLengths r).prefix6len.toNat,
    (deriveLengths r).ealen.toNat, (deriveLengths r).psidlen.toNat, ⟨?_, ⟨iface', ho⟩, ?_, ?_, ?_⟩⟩
  · constructor <;> omega
  · omega
  · omega
  · omega

/-! ### Disjointness -/

/-- A bit of the embedded address bits that two prefixes under the same lengths do not share
    separates their address prefixes or their port sets. -/
theorem assigned_disjoint {env env' : Env} {iface iface' : String} {r r' : Rule} {o o' : Output}
    {p4 p6 ea k : Nat} (h : Lengths r p4 p6 ea k) (h' : Lengths r' p4 p6 ea k)
    (ho : evalRule env r iface = some o) (ho' : evalRule env' r' iface' = some o')
    (hoffset : r.offset = r'.offset) (hoff : r.offset.toNat + k ≤ 16) {i : Nat} (hi : p6 ≤ i)
    (hlt : i < p6 + ea) (hbit : bit r.pd i ≠ bit r'.pd i) : Disjoint o.assigned o'.assigned := by
  obtain ⟨haddr, hlen, hports⟩ := evalRule_spec h ho
  obtain ⟨haddr', hlen', hports'⟩ := evalRule_spec h' ho'
  have hd := h.derived
  have hk := h.k_le
  rw [Set.disjoint_left]
  -- an address and port in both would have the same bits at `i` in both prefixes
  intro ap ⟨ha, hp⟩ ⟨ha', hp'⟩
  apply hbit
  by_cases hsuffix : i < p6 + (ea - k)
  · -- the bit is in the address suffix
    have h1 := ha (p4 + (i - p6)) (by rw [hlen]; omega)
    have h2 := ha' (p4 + (i - p6)) (by rw [hlen']; omega)
    rw [haddr, bit_calcIpv4addr env.endian h (by omega), show p6 + (i - p6) = i by omega] at h1
    rw [haddr', bit_calcIpv4addr env'.endian h' (by omega), show p6 + (i - p6) = i by omega] at h2
    rw [← h1, h2]
  · -- the bit is in the PSID, which the port determines
    have hpsid : psidOf env.endian r p6 ea k = psidOf env'.endian r' p6 ea k := by
      simp only [Output.HasPort, hports (by omega)] at hp
      simp only [Output.HasPort, hports' (by omega), ← hoffset] at hp'
      obtain ⟨range, hmem, hle, hge⟩ := hp
      obtain ⟨range', hmem', hle', hge'⟩ := hp'
      rw [← psid_of_mem_portRanges hoff (psidOf_lt _ _ _ _ hk) hmem hle hge,
        ← psid_of_mem_portRanges hoff (psidOf_lt _ _ _ _ hk) hmem' hle' hge']
    have h1 := testBit_psidOf env.endian h (show i - (p6 + ea - k) < k by omega)
    have h2 := testBit_psidOf env'.endian h' (show i - (p6 + ea - k) < k by omega)
    rw [show p6 + ea - k + (i - (p6 + ea - k)) = i by omega] at h1 h2
    rw [← h1, ← h2, hpsid]

/-- Two delegated prefixes under one rule, each long enough for the embedded address bits and
    different in them, are assigned no address and port both. The rule arguments may differ in
    `pd` and `pdlen`, and each run has a dump of its own. -/
theorem calcRule_disjoint {env env' : Env} (hlegacy : env.legacy = env'.legacy)
    {opts opts' : List Opt} (hrule : SameRule (parseRule opts) (parseRule opts'))
    (hlw : (parseRule opts).lw4o6 = false) (hpsid : (parseRule opts).psidlen ≤ 0)
    {iface iface' j j' : String} {o o' : Output}
    (ho : calcRule env (parseRule opts) iface = (some o, j))
    (ho' : calcRule env' (parseRule opts') iface' = (some o', j'))
    (hoff : o.offset + o.psidlen ≤ 16) (hea : o.ealen = o'.ealen)
    (hpd : o.prefix6len + o.ealen ≤ o.pdlen) (hpd' : o'.prefix6len + o'.ealen ≤ o'.pdlen)
    (hdiff : DifferInEaBits o o') : Disjoint o.assigned o'.assigned := by
  have hlw' : (parseRule opts').lw4o6 = false := by rw [hrule]; exact hlw
  have hpsid' : (parseRule opts').psidlen ≤ 0 := by rw [hrule]; exact hpsid
  obtain ⟨r, p4, p6, ea, k, h⟩ := evaluated_of_calcRule ho hlw hpsid hpd
  obtain ⟨r', p4', p6', ea', k', h'⟩ := evaluated_of_calcRule ho' hlw' hpsid' hpd'
  obtain ⟨i1, he⟩ := h.eval
  obtain ⟨i2, he'⟩ := h'.eval
  obtain ⟨fea, fk, foff, f6, fpd, -⟩ := evalRule_fields he
  obtain ⟨fea', fk', foff', f6', fpd', -⟩ := evalRule_fields he'
  have hl := h.lengths
  have hl' := h'.lengths
  -- both outputs are of the same rule, so the lengths are the same
  have hp4 : r'.prefix4len = r.prefix4len := by
    rw [h'.prefix4len, h.prefix4len, hrule]
  have hp6 : r'.prefix6len = r.prefix6len := by
    rw [h'.prefix6len, h.prefix6len, hrule]
  have hoffset : r.offset = r'.offset := by
    rw [h.offset, h'.offset, ← hlegacy, setDefaults_of_not_lw4o6 _ hlw,
      setDefaults_of_not_lw4o6 _ hlw', hrule]
  have e4 := hl.prefix4len
  have e4' := hl'.prefix4len
  have e6 := hl.prefix6len
  have e6' := hl'.prefix6len
  have eea := hl.ealen
  have eea' := hl'.ealen
  have ek := hl.psidlen
  have ed := hl.derived
  have ed' := hl'.derived
  have hk := hl.k_le
  -- the lengths as numbers, the differing bit is among the EA bits
  obtain rfl : p4 = p4' := by omega
  obtain rfl : p6 = p6' := by omega
  obtain rfl : ea = ea' := by omega
  obtain rfl : k = k' := by omega
  obtain ⟨i, hi, hlt, hbit⟩ := hdiff
  exact assigned_disjoint hl hl' he he' hoffset (by omega) (show p6 ≤ i by omega) (by omega)
    (by rwa [← fpd, ← fpd'])

/-- `2001:db8:12:xx00::/56`, up to its last byte. -/
def samplePd (last : UInt8) : Mem := fun i => [0x20, 0x01, 0x0d, 0xb8, 0x00, 0x12, last].getD i 0

/-- 16 embedded address bits behind a /40, for the addresses of 192.0.2.0/24. -/
def sampleOpts (last : UInt8) : List Opt :=
  [.num .ealen 16 false, .num .prefix4len 24 false, .num .prefix6len 40 false,
    Opt.ipv4prefix (some fun i => [192, 0, 2].getD i 0), Opt.ipv6prefix (some (samplePd 0)),
    .pd (some (samplePd last)), .num .pdlen 56 false]

def sampleEnv : Env := { endian := .little, legacy := false, iface := "wan6", dump := [] }

/-- The output for a sample prefix, as far as `calcRule_disjoint` looks at it. -/
private theorem sample_output (last : UInt8) (hlast : last = 0x34 ∨ last = 0x35) :
    ∃ o, calcRule sampleEnv (parseRule (sampleOpts last)) "wan6" = (some o, "wan6") ∧
      o.ealen = 16 ∧ o.psidlen = 8 ∧ o.offset = 6 ∧ o.prefix6len = 40 ∧ o.pdlen = 56 ∧
      bit o.pd 55 = (last == 0x35) := by
  obtain rfl | rfl := hlast <;>
    exact ⟨_, rfl, by decide, by decide, by decide, by decide, by decide, by decide⟩

/-- `2001:db8:12:3400::/56` and `2001:db8:12:3500::/56` share an address but no port of it. -/
theorem calcRule_disjoint_sample :
    ∃ o o', calcRule sampleEnv (parseRule (sampleOpts 0x34)) "wan6" = (some o, "wan6") ∧
      calcRule sampleEnv (parseRule (sampleOpts 0x35)) "wan6" = (some o', "wan6") ∧
      Disjoint o.assigned o'.assigned := by
  obtain ⟨o, ho, hea, hk, hoff, h6, hlen, hbit⟩ := sample_output 0x34 (Or.inl rfl)
  obtain ⟨o', ho', hea', hk', hoff', h6', hlen', hbit'⟩ := sample_output 0x35 (Or.inr rfl)
  have hrule : SameRule (parseRule (sampleOpts 0x34)) (parseRule (sampleOpts 0x35)) := rfl
  have hdiff : DifferInEaBits o o' :=
    ⟨55, by rw [h6]; decide, by rw [h6, hea]; decide, by rw [hbit, hbit']; decide⟩
  exact ⟨o, o', ho, ho', calcRule_disjoint rfl hrule rfl (by decide) ho ho'
    (by rw [hoff, hk]; decide) (by rw [hea, hea']) (by rw [h6, hea, hlen]; decide)
    (by rw [h6', hea', hlen']; decide) hdiff⟩

end HandsomeMod.Native.Mapcalc
