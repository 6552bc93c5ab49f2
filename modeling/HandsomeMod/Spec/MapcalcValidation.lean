import HandsomeMod.Native.Mapcalc
import HandsomeMod.Spec.MapcalcPortsets

/-!
# What the check of a MAP rule does not rule out

`mapcalc` skips rules that are invalid or incomplete. The lengths that pass can still be too large
for what follows: the embedded address bits may end behind the delegated prefix, the address suffix
may have more than 32 bits, the IPv4 prefix may leave none of them, and the PSID may not fit behind
`offset`. These are the only ways in which a rule that is not skipped leads out of bounds.
-/

namespace HandsomeMod.Native.Mapcalc

open ForStd Access

/-! ### Bit copies -/

/-- `bmemcpy` stays inside exactly if both objects have the bits. -/
private theorem allIn_bmemcpyAccesses (dst src bits : Nat) :
    AllIn (bmemcpyAccesses dst src bits) ↔ bits ≤ 8 * src ∧ bits ≤ 8 * dst := by
  rw [bmemcpyAccesses]
  by_cases hrest : bits % 8 > 0
  · simp only [hrest, ↓reduceIte, allIn_append, allIn_cons, allIn_nil, inBounds_bytes,
      inBounds_shift, and_true]
    omega
  · simp only [hrest, ↓reduceIte, allIn_append, allIn_cons, allIn_nil, inBounds_bytes, and_true]
    omega

/-- Up to 32 bits come from at most five bytes. -/
private theorem allIn_bmemcpys64Accesses {dst : Nat} (hdst : dst ≤ 4) (frombits nbits : Nat) :
    AllIn (bmemcpys64Accesses dst frombits nbits) ↔ frombits + nbits < 128 ∧ nbits ≤ 8 * dst := by
  simp only [bmemcpys64Accesses, allIn_append, allIn_cons, allIn_nil, allIn_bmemcpyAccesses,
    inBounds_bytes, inBounds_shift, and_true]
  omega

/-- In bounds, `bmemcpys64` copies nothing that lies behind the delegated prefix. -/
theorem bmemcpys64_congr (e : Endian) (a : Mem) {b b' : Mem} {dst frombits nbits : Nat}
    (hall : AllIn (bmemcpys64Accesses dst frombits nbits)) (h : ∀ i < 16, b i = b' i) :
    bmemcpys64 e a b frombits nbits = bmemcpys64 e a b' frombits nbits := by
  have hread : (Access.bytes (frombits / 8 : Nat)
      ((frombits + nbits) / 8 - frombits / 8 + 1 : Nat) 16).InBounds := hall _ (by
    simp [bmemcpys64Accesses])
  rw [inBounds_bytes] at hread
  -- both copies read the same bytes, all inside the prefix
  have hbuf : memcpyAt zeros 0 (fun i => b (frombits / 8 + i))
        ((frombits + nbits) / 8 - frombits / 8 + 1) =
      memcpyAt zeros 0 (fun i => b' (frombits / 8 + i))
        ((frombits + nbits) / 8 - frombits / 8 + 1) := by
    funext i
    simp only [memcpyAt]
    split
    · exact h _ (by omega)
    · rfl
  simp only [bmemcpys64, hbuf]

/-! ### The lengths of a rule -/

variable {legacy : Bool} {r : Rule} {pdlen : Int}

/-- The `offset` of a rule, or its default. -/
def offsetOf (legacy : Bool) (r : Rule) : Int :=
  if r.offset < 0 then if r.lw4o6 then 0 else if legacy then 4 else 6 else r.offset

/-- The number of embedded address bits: lw4o6 has those of the PSID only, and MAP without an
    `ealen` takes what the delegated prefix has more than that of the rule. -/
def ealenOf (r : Rule) (pdlen : Int) : Int :=
  if r.lw4o6 then max 0 r.psidlen
  else if r.ealen < 0 ∧ 0 ≤ pdlen then pdlen - r.prefix6len
  else r.ealen

/-- The length of the PSID: without a `psidlen` it is what the address leaves of the embedded
    address bits. -/
def psidlenOf (r : Rule) (pdlen : Int) : Int :=
  if r.psidlen ≤ 0 then max 0 (ealenOf r pdlen - (32 - r.prefix4len)) else r.psidlen

/-- The length of the delegated prefix: that of the rule, or of the one found in the dump, and
    negative if there is none. -/
def pdLength (env : Env) (r : Rule) (iface : String) : Int :=
  if r.pdlen < 0 then (findPd env.iface env.dump (setDefaults env.legacy r) iface).1.pdlen
  else r.pdlen

/-- What a rule with a delegated prefix of this length must meet behind the check. -/
structure Suffices (legacy : Bool) (r : Rule) (pdlen : Int) : Prop where
  /-- a PSID that is read ends in the delegated prefix -/
  psid : 0 ≤ pdlen → r.psidlen ≤ 0 ∨ r.psid < 0 → r.prefix6len + ealenOf r pdlen < 128
  /-- the address suffix ends in the delegated prefix -/
  suffix_inside : 0 ≤ pdlen ∨ ealenOf r pdlen = psidlenOf r pdlen →
    r.prefix6len + (ealenOf r pdlen - psidlenOf r pdlen) < 128
  /-- it fits in an address -/
  suffix_fits : 0 ≤ pdlen ∨ ealenOf r pdlen = psidlenOf r pdlen →
    ealenOf r pdlen - psidlenOf r pdlen ≤ 32
  /-- the IPv4 prefix is not the whole address -/
  prefix4len : 0 ≤ pdlen ∨ ealenOf r pdlen = psidlenOf r pdlen → r.prefix4len < 32
  /-- a PSID that is known fits behind the offset -/
  ports : 0 < psidlenOf r pdlen → 0 ≤ pdlen ∨ 0 < r.psidlen ∧ 0 ≤ r.psid →
    offsetOf legacy r + psidlenOf r pdlen ≤ 16

/-- The defaults change the offset only. -/
private theorem setDefaults_fields (legacy : Bool) (r : Rule) :
    (setDefaults legacy r).lw4o6 = r.lw4o6 ∧ (setDefaults legacy r).offset = offsetOf legacy r ∧
      (setDefaults legacy r).prefix4len = r.prefix4len ∧
      (setDefaults legacy r).prefix6len = r.prefix6len ∧ (setDefaults legacy r).pdlen = r.pdlen := by
  by_cases hlw : r.lw4o6 <;> by_cases hneg : r.offset < 0 <;>
    simp [setDefaults, offsetOf, hlw, hneg]

/-- For lw4o6 the PSID length is taken for the EA length. -/
private theorem setDefaults_lengths (legacy : Bool) (r : Rule) :
    (setDefaults legacy r).ealen = (if r.lw4o6 then max 0 r.psidlen else r.ealen) ∧
      (setDefaults legacy r).psidlen = (if r.lw4o6 then max 0 r.psidlen else r.psidlen) := by
  have hmax : (if r.psidlen < 0 then 0 else r.psidlen) = max 0 r.psidlen := by
    split <;> omega
  by_cases hlw : r.lw4o6 <;> by_cases hneg : r.offset < 0 <;>
    simp [setDefaults, hlw, hneg, hmax]

/-- The lengths of the rule `r'` that is evaluated, from those of the rule argument. -/
structure Effective (legacy : Bool) (r : Rule) (l : Int) (r' : Rule) : Prop where
  offset : r'.offset = offsetOf legacy r
  prefix4len : r'.prefix4len = r.prefix4len
  prefix6len : r'.prefix6len = r.prefix6len
  pdlen : r'.pdlen = l
  ealen : r'.ealen = ealenOf r l
  psidlen : r'.psidlen = psidlenOf r l
  psid : r'.psid = if r.psidlen ≤ 0 then -1 else r.psid

/-- The lengths that are derived where they are not given. -/
private theorem deriveLengths_lengths (r : Rule) :
    (deriveLengths r).ealen =
        (if r.ealen < 0 ∧ 0 ≤ r.pdlen then r.pdlen - r.prefix6len else r.ealen) ∧
      (deriveLengths r).psidlen =
        (if r.psidlen ≤ 0 then max 0 ((deriveLengths r).ealen - (32 - r.prefix4len))
          else r.psidlen) ∧
      (deriveLengths r).psid = (if r.psidlen ≤ 0 then -1 else r.psid) := by
  by_cases hea : r.ealen < 0 ∧ 0 ≤ r.pdlen <;> by_cases hk : r.psidlen ≤ 0 <;>
    simp [deriveLengths, hea, hk] <;> split <;> omega

/-- The derived lengths are the effective ones. -/
theorem deriveLengths_effective {r' : Rule} (hsame : SameRule (setDefaults legacy r) r') :
    Effective legacy r r'.pdlen (deriveLengths r') := by
  obtain ⟨-, hoffset, h4, h6, -⟩ := setDefaults_fields legacy r
  obtain ⟨hea, hk⟩ := setDefaults_lengths legacy r
  obtain ⟨f4, f6, foffset, -, fpdlen⟩ := deriveLengths_frame r'
  obtain ⟨fea, fk, fpsid⟩ := deriveLengths_lengths r'
  have hr' : r'.offset = offsetOf legacy r ∧ r'.prefix4len = r.prefix4len ∧
      r'.prefix6len = r.prefix6len ∧ r'.psid = r.psid ∧
      r'.ealen = (if r.lw4o6 then max 0 r.psidlen else r.ealen) ∧
      r'.psidlen = (if r.lw4o6 then max 0 r.psidlen else r.psidlen) := by
    rw [hsame]
    exact ⟨hoffset, h4, h6, setDefaults_psid legacy r, hea, hk⟩
  obtain ⟨e1, e2, e3, e4, e5, e6⟩ := hr'
  -- lw4o6 clears a negative `psidlen`, which is as good as zero
  have hpos : r'.psidlen ≤ 0 ↔ r.psidlen ≤ 0 := by
    rw [e6]
    split <;> omega
  have hlen : (deriveLengths r').ealen = ealenOf r r'.pdlen := by
    rw [fea, e5, e3, ealenOf]
    split
    · rw [if_neg (by omega)]
    · rfl
  refine ⟨foffset.trans e1, f4.trans e2, f6.trans e3, fpdlen, hlen, ?_, ?_⟩
  · rw [fk, hlen, e2, psidlenOf, if_congr hpos rfl rfl]
    split
    · rfl
    · rw [e6]
      split <;> omega
  · rw [fpsid, e4, if_congr hpos rfl rfl]

/-! ### What is evaluated -/

/-- Shifting the PSID keeps its sign. -/
private theorem alignPsid_nonneg (e : Endian) {k : Int} (hk : 0 < k) (psid16 : Mem) (psid : Int) :
    0 ≤ (alignPsid e k psid16 psid).2 ↔ 0 ≤ psid := by
  rw [alignPsid, if_pos hk]
  show 0 ≤ psid >>> (16 - k).toNat * 2 ^ (16 - k).toNat ↔ 0 ≤ psid
  rw [mul_nonneg_iff_of_pos_right (by positivity), Int.shiftRight_eq_div_pow]
  exact Int.ediv_nonneg_iff_of_pos (by positivity)

/-- A PSID that is read or given is not negative. -/
private theorem readPsid_nonneg (e : Endian) (r : Rule) :
    0 ≤ (readPsid e r).2 ↔ (0 ≤ r.psidlen ∧ 0 ≤ r.pdlen) ∨ 0 ≤ r.psid := by
  rw [readPsid]
  split
  · next h => simp [h.2.1, h.2.2]
  · next h =>
    simp only
    omega

/-- What the check of a rule leaves. -/
private theorem isInvalid_eq_false {r : Rule} (h : isInvalid r = false) :
    0 ≤ r.prefix4len ∧ 0 ≤ r.prefix6len ∧ 0 ≤ r.ealen ∧ r.psidlen ≤ 16 ∧ r.psidlen ≤ r.ealen := by
  simp only [isInvalid, Bool.or_eq_false_iff, decide_eq_false_iff_not] at h
  omega

/-- The accesses of the evaluation, for lengths that passed the check. -/
theorem evalRuleAccesses_allIn (e : Endian) {r : Rule} (hvalid : isInvalid r = false)
    (hskip : ¬(r.pdlen < 0 ∧ !r.fmr)) (h4 : r.prefix4len ≤ 32) (hk : 0 ≤ r.psidlen)
    (hoffset : 0 ≤ r.offset) (hoff : r.offset ≤ 16) :
    AllIn (evalRuleAccesses e r) ↔
      (r.psid < 0 ∧ 0 ≤ r.pdlen → r.prefix6len + r.ealen < 128) ∧
      (0 ≤ r.pdlen ∨ r.ealen = r.psidlen → r.prefix6len + (r.ealen - r.psidlen) < 128 ∧
        r.ealen - r.psidlen ≤ 32 ∧ r.prefix4len < 32) ∧
      (0 < r.psidlen → 0 ≤ r.pdlen ∨ 0 ≤ r.psid → r.offset + r.psidlen ≤ 16) := by
  obtain ⟨v4, v6, vea, vk, vle⟩ := isInvalid_eq_false hvalid
  -- the accesses function by function
  have hpsid : AllIn (readPsidAccesses r) ↔
      (r.psid < 0 ∧ 0 ≤ r.pdlen → r.prefix6len + r.ealen < 128) := by
    rw [readPsidAccesses, allIn_ite, allIn_bmemcpys64Accesses (by decide)]
    omega
  have halign : AllIn (alignPsidAccesses r.psidlen) := by
    rw [alignPsidAccesses, allIn_ite]
    intro hpos
    simp only [allIn_cons, allIn_nil, inBounds_shift, and_true]
    omega
  have haddr : AllIn (calcIpv4addrAccesses r) ↔
      (0 ≤ r.pdlen ∨ r.ealen = r.psidlen → r.prefix6len + (r.ealen - r.psidlen) < 128 ∧
        r.ealen - r.psidlen ≤ 32 ∧ r.prefix4len < 32) := by
    rw [calcIpv4addrAccesses, allIn_ite]
    refine imp_congr_right fun _ => ?_
    simp only [allIn_append, allIn_bmemcpys64Accesses (Nat.le_refl 4), allIn_bmemcpyAccesses,
      allIn_cons, allIn_nil, inBounds_shift, and_true]
    omega
  have haddr6 : AllIn (calcIpv6addrAccesses r) := by
    rw [calcIpv6addrAccesses, allIn_ite]
    intro hpos
    rw [allIn_ite]
    intro hrest
    simp only [allIn_cons, allIn_nil, inBounds_shift, and_true]
    omega
  have hports : AllIn (portRangesAccesses r.offset r.psidlen) ↔ r.offset + r.psidlen ≤ 16 := by
    simp only [portRangesAccesses, allIn_cons, allIn_nil, inBounds_shift, and_true]
    omega
  -- the port ranges are computed where a PSID is known
  have hknown : r.psidlen > 0 ∧ (alignPsid e r.psidlen (readPsid e r).1 (readPsid e r).2).2 ≥ 0 ↔
      0 < r.psidlen ∧ (0 ≤ r.pdlen ∨ 0 ≤ r.psid) := by
    refine and_congr_right fun hpos => ?_
    rw [ge_iff_le, alignPsid_nonneg e hpos, readPsid_nonneg]
    omega
  rw [evalRuleAccesses]
  simp only [allIn_append, hskip, ↓reduceIte, allIn_ite, hpsid, halign, haddr, haddr6, hknown, hports,
    true_and, and_true, and_imp, and_assoc]

/-- The rule and the delegated prefix that is evaluated. -/
def withPd (env : Env) (r : Rule) (iface : String) : Rule × String :=
  if (setDefaults env.legacy r).pdlen < 0 then
    findPd env.iface env.dump (setDefaults env.legacy r) iface
  else (setDefaults env.legacy r, iface)

/-- Looking for the prefix keeps the rest of the rule. -/
theorem withPd_same (env : Env) (r : Rule) (iface : String) :
    SameRule (setDefaults env.legacy r) (withPd env r iface).1 := by
  rw [withPd]
  split
  · exact SameRule.findPd ..
  · rfl

/-- The length of the prefix that is found. -/
theorem withPd_pdlen (env : Env) (r : Rule) (iface : String) :
    (withPd env r iface).1.pdlen = pdLength env r iface := by
  obtain ⟨-, -, -, -, hpdlen⟩ := setDefaults_fields env.legacy r
  rw [withPd, pdLength, hpdlen]
  split
  · rfl
  · exact hpdlen

/-- A rule is checked and evaluated with the prefix that was found. -/
theorem calcRule_withPd (env : Env) (r : Rule) (iface : String) :
    calcRule env r iface =
      if isInvalid (deriveLengths (withPd env r iface).1) then (none, (withPd env r iface).2)
      else (evalRule env (deriveLengths (withPd env r iface).1) (withPd env r iface).2,
        (withPd env r iface).2) := rfl

/-- Its accesses are those of the evaluation with this prefix. -/
theorem calcRuleAccesses_withPd (env : Env) (r : Rule) (iface : String) :
    calcRuleAccesses env r iface =
      if isInvalid (deriveLengths (withPd env r iface).1) then []
      else evalRuleAccesses env.endian (deriveLengths (withPd env r iface).1) := rfl

/-- A rule that is not skipped stays in bounds exactly if its lengths meet what the check leaves
    open. -/
theorem calcRuleAccesses_allIn_iff {env : Env} {opts : List Opt} {iface iface' : String} {o : Output}
    (h : calcRule env (parseRule opts) iface = (some o, iface')) :
    AllIn (calcRuleAccesses env (parseRule opts) iface) ↔
      Suffices env.legacy (parseRule opts) (pdLength env (parseRule opts) iface) := by
  have heff := deriveLengths_effective (withPd_same env (parseRule opts) iface)
  rw [withPd_pdlen] at heff
  rw [calcRule_withPd] at h
  rw [calcRuleAccesses_withPd]
  generalize (withPd env (parseRule opts) iface).2 = j at h
  generalize deriveLengths (withPd env (parseRule opts) iface).1 = r at h heff ⊢
  generalize pdLength env (parseRule opts) iface = l at heff ⊢
  split at h
  · cases (Prod.mk.inj h).1
  · next hvalid =>
    -- a rule that gives an output has a prefix or is a forwarding rule
    have hskip : ¬(r.pdlen < 0 ∧ !r.fmr) := by
      intro hskip
      have ho := (Prod.mk.inj h).1
      simp only [evalRule, hskip, and_self, ↓reduceIte] at ho
      cases ho
    have hb := parseRule_bounded opts
    have hb4 : (parseRule opts).prefix4len ≤ 32 := hb .prefix4len
    have hboff : (parseRule opts).offset ≤ 16 := hb .offset
    -- the offset is the one given, which is bounded, or a default
    have hoffset : 0 ≤ r.offset ∧ r.offset ≤ 16 := by
      rw [heff.offset, offsetOf]
      repeat' split
      all_goals omega
    have hk : 0 ≤ r.psidlen := by
      rw [heff.psidlen, psidlenOf]
      split <;> omega
    rw [if_neg hvalid, evalRuleAccesses_allIn env.endian (by simpa using hvalid) hskip
      (by rw [heff.prefix4len]; exact hb4) hk hoffset.1 hoffset.2]
    -- a PSID is known if it was given with its length
    have hneg : r.psid < 0 ↔ (parseRule opts).psidlen ≤ 0 ∨ (parseRule opts).psid < 0 := by
      rw [heff.psid]
      split <;> omega
    have hknown : 0 ≤ r.psid ↔ 0 < (parseRule opts).psidlen ∧ 0 ≤ (parseRule opts).psid := by
      omega
    rw [hneg, hknown, heff.pdlen, heff.ealen, heff.psidlen, heff.prefix4len, heff.prefix6len,
      heff.offset]
    constructor
    · intro ⟨hpsid, hsuffix, hports⟩
      exact ⟨fun hl hopt => hpsid ⟨hopt, hl⟩, fun hl => (hsuffix hl).1, fun hl => (hsuffix hl).2.1,
        fun hl => (hsuffix hl).2.2, hports⟩
    · intro hs
      exact ⟨fun hl => hs.psid hl.2 hl.1,
        fun hl => ⟨hs.suffix_inside hl, hs.suffix_fits hl, hs.prefix4len hl⟩, hs.ports⟩

/-- The sample rule is fine. -/
theorem calcRuleAccesses_sample :
    ∃ o, calcRule sampleEnv (parseRule (sampleOpts 0x34)) "wan6" = (some o, "wan6") ∧
      AllIn (calcRuleAccesses sampleEnv (parseRule (sampleOpts 0x34)) "wan6") := by
  refine ⟨_, rfl, (calcRuleAccesses_allIn_iff rfl).mpr ?_⟩
  constructor <;> decide

/-- With 12 bits in front of a PSID of 8 bits, ports would have 20 bits: `PORTSETS` shifts by -4. -/
theorem calcRuleAccesses_offset :
    ∃ o, calcRule sampleEnv (parseRule (sampleOpts 0x34 ++ [.num .offset 12 false])) "wan6" =
        (some o, "wan6") ∧
      .shift (-4) 32 ∈
        calcRuleAccesses sampleEnv (parseRule (sampleOpts 0x34 ++ [.num .offset 12 false])) "wan6" ∧
      ¬AllIn (calcRuleAccesses sampleEnv
        (parseRule (sampleOpts 0x34 ++ [.num .offset 12 false])) "wan6") := by
  have hmem : Access.shift (-4) 32 ∈ calcRuleAccesses sampleEnv
      (parseRule (sampleOpts 0x34 ++ [.num .offset 12 false])) "wan6" := by decide
  exact ⟨_, rfl, hmem, fun hall => absurd (hall _ hmem) (by decide)⟩

end HandsomeMod.Native.Mapcalc
