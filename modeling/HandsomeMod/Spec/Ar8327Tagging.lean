import HandsomeMod.ForStd.Run
import HandsomeMod.Native.Ar8327
import HandsomeMod.Spec.SwconfigReject

/-!
# Tagged ports of the AR8327

A port is tagged in a VLAN if it is in the set of tagged ports or if its PVID is another VLAN. What
was asked for a VLAN stays in force until a PVID is set to it behind its back: by
`set_port_pvid`, or by a list for the VLAN that is rejected.
-/

namespace HandsomeMod.Native.Ar8327

open ForStd Swconfig
open Ar8216 (bit Tagged Member getLsbD_or_bit getLsbD_and_not_bit and_bit_ne_zero)

/-! ### Requests -/

inductive Request where
  | setVlanPorts (vlan : Nat) (ports : List SwitchPort)
  | setPvid (port : Nat) (vlan : Int)
  | setVlan (i : Int)

/-- The driver, and the last list that was accepted for each VLAN -/
structure St where
  priv : Priv
  asked : Nat → List SwitchPort

/-- The last entry for a port says if it is tagged. -/
def entry (q : Nat) (ports : List SwitchPort) : Option Bool :=
  ports.foldl (fun e p => if p.id = q then some p.tagged else e) none

/-- A port is to be tagged in a VLAN. -/
def AskedTagged (s : St) (vlan q : Nat) : Prop := entry q (s.asked vlan) = some true

def step (s : St) : Request → St
  | .setVlanPorts vlan ports =>
    let (priv, result) := setVlanPorts switchDev s.priv vlan ports
    match result with
    | .ok () => { priv := priv, asked := Function.update s.asked vlan ports }
    | .error _ => { s with priv := priv }
  | .setPvid port vlan => { s with priv := (setPvid switchDev s.priv port vlan).1 }
  | .setVlan i => { s with priv := swSetVlan s.priv i }

/-- The driver after a reset -/
def start (priv : Priv) : St := { priv := swResetSwitch priv, asked := fun _ => [] }

/-- A port that is to be tagged in a VLAN is reported so, and loaded so if VLANs are on. -/
def Stable (s : St) : Prop :=
  ∀ vlan < dev.vlans, ∀ q, AskedTagged s vlan q →
    { id := q, tagged := true } ∈ swGetPorts s.priv vlan ∧
    (s.priv.vlan = true →
      (vtuLoadVlan s.priv (s.priv.vlanId vlan) (s.priv.vlanTable vlan)).2 >>> egModeShift q &&& 3 =
        EgMode.tag.toBitVec)

/-- A port whose PVID becomes the VLAN is in the set of tagged ports, if it is to be tagged. -/
def Keeps (s : St) (vlan q : Nat) : Prop := AskedTagged s vlan q → Tagged s.priv.toPriv q

/-- No PVID is set to a VLAN in which the port is tagged only for its other PVID. -/
def Harmless (s : St) : Request → Prop
  | .setVlanPorts vlan ports =>
    vlan < dev.vlans → ports.length ≤ dev.ports → (∃ p ∈ ports, p.id ≥ dev.ports) →
      ∀ p ∈ validPrefix switchDev ports, p.tagged = false → Keeps s vlan p.id
  | .setPvid port vlan =>
    port < dev.ports → ∀ v : Nat, vlan = Int.ofNat v → v < dev.vlans → Keeps s v port
  | .setVlan _ => True

/-! ### What is reported and loaded -/

/-- The two ways to be tagged -/
def IsTagged (s : Priv) (vlan q : Nat) : Prop := Tagged s.toPriv q ∨ (s.pvid q).toNat ≠ vlan

/-- The ports that are listed for a VLAN are its members. -/
theorem mem_swGetPorts {s : Priv} {vlan q : Nat} :
    { id := q, tagged := true } ∈ swGetPorts s vlan ↔
      q < dev.ports ∧ Member s.toPriv vlan q ∧ IsTagged s vlan q := by
  rw [swGetPorts, List.mem_filterMap]
  constructor
  -- the ports listed are the members, each with its flag in this VLAN
  · rintro ⟨i, hi, hp⟩
    split at hp
    · cases hp
    · rename_i hmem
      rw [Option.some.injEq, SwitchPort.mk.injEq, decide_eq_true_eq, and_bit_ne_zero] at hp
      obtain ⟨rfl, htagged⟩ := hp
      exact ⟨List.mem_range.mp hi, and_bit_ne_zero.mp hmem, htagged⟩
  · rintro ⟨hq, hmem, htagged⟩
    refine ⟨q, List.mem_range.mpr hq, ?_⟩
    rw [if_neg (and_bit_ne_zero.mpr hmem), Option.some.injEq, SwitchPort.mk.injEq,
      decide_eq_true_eq, and_bit_ne_zero]
    exact ⟨rfl, htagged⟩

/-- The bits of a word that is put together of fields -/
private theorem getLsbD_foldl_or {w : Nat} (f : Nat → BitVec w) (init : BitVec w) (n k : Nat) :
    ((List.range n).foldl (fun val i => val ||| f i) init).getLsbD k = true ↔
      init.getLsbD k = true ∨ ∃ i < n, (f i).getLsbD k = true := by
  induction n with
  | zero => simp
  | succ n ih =>
    rw [List.range_succ, List.foldl_append, List.foldl_cons, List.foldl_nil, BitVec.getLsbD_or,
      Bool.or_eq_true, ih, or_assoc]
    -- the last of the first `n + 1` is `n` itself
    apply or_congr_right
    constructor
    · rintro (⟨i, hi, hbit⟩ | hbit)
      · exact ⟨i, by omega, hbit⟩
      · exact ⟨n, by omega, hbit⟩
    · rintro ⟨i, hi, hbit⟩
      rcases Nat.lt_succ_iff_lt_or_eq.mp hi with hlt | rfl
      · exact .inl ⟨i, hlt, hbit⟩
      · exact .inr hbit

/-- An egress mode has two bits. -/
theorem EgMode.getLsbD_toBitVec (m : EgMode) {k : Nat} (hk : 2 ≤ k) :
    m.toBitVec.getLsbD k = false := by
  have hlt : m.toBitVec.toNat < 2 ^ 2 := by cases m <;> decide
  rw [BitVec.getLsbD, Nat.testBit_lt_two_pow]
  exact Nat.lt_of_lt_of_le hlt (Nat.pow_le_pow_right (by decide) hk)

/-- A field of the word has its own bits only. -/
private theorem getLsbD_field {w : Nat} (m : EgMode) {i j k : Nat} (hk : k < 2)
    (hi : egModeShift i + k < w)
    (m' : BitVec w) (hm : ∀ l, m'.getLsbD l = m.toBitVec.getLsbD l) :
    (m' <<< egModeShift j).getLsbD (egModeShift i + k) = true ↔
      i = j ∧ m.toBitVec.getLsbD k = true := by
  rw [BitVec.getLsbD_shiftLeft, hm, Bool.and_eq_true, Bool.and_eq_true, decide_eq_true_eq,
    Bool.not_eq_true', decide_eq_false_iff_not]
  rw [egModeShift] at hi
  simp only [egModeShift]
  constructor
  · rintro ⟨⟨-, hge⟩, hbit⟩
    -- the modes of two ports have two bits each, and do not overlap
    by_cases hij : i = j
    · subst hij
      rw [Nat.add_sub_cancel_left] at hbit
      exact ⟨rfl, hbit⟩
    · rw [m.getLsbD_toBitVec (by omega)] at hbit
      cases hbit
  · rintro ⟨rfl, hbit⟩
    rw [Nat.add_sub_cancel_left]
    exact ⟨⟨hi, by omega⟩, hbit⟩

/-- The field of a port in a VTU entry. -/
private theorem vtuLoadVlan_field (s : Priv) (vid : UInt16) (portMask : BitVec 8) {q : Nat}
    (hq : q < dev.ports) :
    (vtuLoadVlan s vid portMask).2 >>> egModeShift q &&& 3 = (egMode s vid portMask q).toBitVec := by
  have h7 : q < 7 := hq
  apply BitVec.eq_of_getLsbD_eq
  intro k hk
  rw [BitVec.getLsbD_and, BitVec.getLsbD_ushiftRight]
  by_cases hk2 : k < 2
  · have hthree : (3 : BitVec 32).getLsbD k = true := by
      interval_cases k <;> rfl
    -- the two bits in front are above the fields of all ports
    have hhead : (BitVec.twoPow 32 20 ||| BitVec.twoPow 32 19).getLsbD (egModeShift q + k) = false := by
      rw [BitVec.getLsbD_or, BitVec.getLsbD_twoPow, BitVec.getLsbD_twoPow, egModeShift]
      rw [decide_eq_false (by omega : ¬20 = 4 + q * 2 + k),
        decide_eq_false (by omega : ¬19 = 4 + q * 2 + k)]
      rfl
    rw [hthree, Bool.and_true, Bool.eq_iff_iff, vtuLoadVlan, getLsbD_foldl_or, hhead]
    have hfield (j : Nat) := getLsbD_field (egMode s vid portMask j) (j := j) hk2
      (show egModeShift q + k < 32 by rw [egModeShift]; omega) _ fun _ => rfl
    simp only [hfield, Bool.false_eq_true, false_or]
    constructor
    · rintro ⟨j, -, rfl, hbit⟩
      exact hbit
    · exact fun hbit => ⟨q, hq, rfl, hbit⟩
  · have hthree : (3 : BitVec 32).getLsbD k = false := EgMode.not.getLsbD_toBitVec (by omega)
    rw [hthree, Bool.and_false, EgMode.getLsbD_toBitVec _ (by omega)]

/-- The VLANs have the ids of the reset, and PVIDs are VLANs. -/
structure Ids (s : Priv) : Prop where
  vlanId : ∀ v < dev.vlans, s.vlanId v = UInt16.ofNat v
  pvid_lt : ∀ q, (s.pvid q).toNat < dev.vlans

/-- With VLANs on, a member is tagged by the entry exactly if it is listed as tagged. -/
private theorem egMode_eq_tag {s : Priv} (hs : Ids s) {vlan q : Nat} (hvlan : vlan < dev.vlans)
    (hon : s.vlan = true) (hmem : Member s.toPriv vlan q) :
    egMode s (s.vlanId vlan) (s.vlanTable vlan) q = .tag ↔ IsTagged s vlan q := by
  have h4096 : dev.vlans = 4096 := rfl
  have hpvid := hs.pvid_lt q
  -- a VLAN's id is its number
  have hid : s.vlanId (s.pvid q).toNat = s.vlanId vlan ↔ (s.pvid q).toNat = vlan := by
    rw [hs.vlanId _ hpvid, hs.vlanId _ hvlan, ← UInt16.toNat_inj, UInt16.toNat_ofNat',
      UInt16.toNat_ofNat']
    omega
  -- tagged everywhere, or a member under another VLAN than its own
  have hcond : (s.vlanTagged &&& bit q ≠ 0 ∨ s.vlanId (s.pvid q).toNat ≠ s.vlanId vlan) ↔
      IsTagged s vlan q := or_congr and_bit_ne_zero (not_congr hid)
  rw [egMode, if_neg (and_bit_ne_zero.mpr hmem), hon, if_neg (by decide)]
  by_cases htagged : IsTagged s vlan q
  · rw [if_pos (hcond.mpr htagged)]
    exact iff_of_true rfl htagged
  · rw [if_neg (mt hcond.mp htagged)]
    exact iff_of_false (by decide) htagged

/-! ### The invariant -/

structure Inv (s : St) : Prop where
  ids : Ids s.priv
  listed : ∀ v < dev.vlans, ∀ q, AskedTagged s v q → q < dev.ports ∧ Member s.priv.toPriv v q
  tagged : ∀ v < dev.vlans, ∀ q, AskedTagged s v q → IsTagged s.priv v q

/-- The invariant says what is promised about tagging. -/
theorem Inv.stable {s : St} (hs : Inv s) : Stable s := by
  intro vlan hvlan q hasked
  obtain ⟨hq, hmem⟩ := hs.listed vlan hvlan q hasked
  have htagged := hs.tagged vlan hvlan q hasked
  refine ⟨mem_swGetPorts.mpr ⟨hq, hmem, htagged⟩, fun hon => ?_⟩
  rw [vtuLoadVlan_field _ _ _ hq, (egMode_eq_tag hs.ids hvlan hon hmem).mpr htagged]

/-- A port that was asked for as tagged is tagged. -/
theorem Stable.isTagged {s : St} (hs : Stable s) {vlan q : Nat} (hvlan : vlan < dev.vlans)
    (hasked : AskedTagged s vlan q) : IsTagged s.priv vlan q :=
  (mem_swGetPorts.mp (hs vlan hvlan q hasked).1).2.2

/-- The invariant holds before the first request. -/
theorem inv_start (priv : Priv) : Inv (start priv) where
  ids :=
    { vlanId := fun _ hv => if_pos hv
      pvid_lt := fun _ => show (0 : UInt16).toNat < dev.vlans by decide }
  listed := fun _ _ _ hasked => by cases hasked
  tagged := fun _ _ _ hasked => by cases hasked

/-! ### `ar8327_sw_set_ports` -/

section SetPorts

variable {s s0 : Priv} {vlan q : Nat} {e : Option Bool}

/-- The loop has reached a state in which the last entry for port `q` was `e`. -/
structure Turn (s0 : Priv) (vlan q : Nat) (s : Priv) (e : Option Bool) : Prop where
  ids : Ids s
  table : ∀ v, v ≠ vlan → s.vlanTable v = s0.vlanTable v
  other : ∀ v, v ≠ vlan → IsTagged s0 v q → IsTagged s v q
  listed : e ≠ none → q < dev.ports ∧ Member s.toPriv vlan q
  own : e = some true → IsTagged s vlan q

/-- An untagged entry of a list sets the PVID. -/
private theorem pvid_swSetPort (p : SwitchPort) : (swSetPort vlan s p).pvid =
    if p.tagged then s.pvid else Function.update s.pvid p.id (UInt16.ofNat vlan) := by
  cases htagged : p.tagged with
  | false => simp only [swSetPort, htagged, Bool.false_eq_true, if_false]
  | true =>
    simp only [swSetPort, htagged, if_true]
    split <;> rfl

/-- The ids of the VLANs are kept. -/
private theorem vlanId_swSetPort (p : SwitchPort) : (swSetPort vlan s p).vlanId = s.vlanId := by
  simp only [swSetPort]
  split
  · split <;> rfl
  · rfl

/-- A port joins its VLAN. -/
private theorem vlanTable_swSetPort (p : SwitchPort) : (swSetPort vlan s p).vlanTable =
    Function.update s.vlanTable vlan (s.vlanTable vlan ||| bit p.id) := by
  simp only [swSetPort]
  split
  · split <;> rfl
  · rfl

/-- A tagged entry tags a port whose PVID is the VLAN, an untagged one untags the port. -/
private theorem tagged_swSetPort {p : SwitchPort} (hp : p.id < 8) (r : Nat) :
    Tagged (swSetPort vlan s p).toPriv r ↔
      if p.tagged then Tagged s.toPriv r ∨ vlan = (s.pvid p.id).toNat ∧ r = p.id
      else Tagged s.toPriv r ∧ r ≠ p.id := by
  cases htagged : p.tagged with
  | false =>
    simp only [Tagged, swSetPort, htagged, Bool.false_eq_true, if_false]
    exact getLsbD_and_not_bit hp
  | true =>
    simp only [Tagged, swSetPort, htagged, if_true]
    split
    · rename_i hown
      rw [getLsbD_or_bit hp, and_iff_right hown]
    · rename_i hown
      exact (or_iff_left fun h => hown h.1).symm

/-- PVIDs stay indices of VLANs. -/
private theorem update_pvid_lt (hs : Ids s) (hvlan : vlan < dev.vlans) (port r : Nat) :
    (Function.update s.pvid port (UInt16.ofNat vlan) r).toNat < dev.vlans := by
  have h4096 : dev.vlans = 4096 := rfl
  rw [Function.update_apply]
  split
  · rw [UInt16.toNat_ofNat']
    omega
  · exact hs.pvid_lt r

/-- The other ports keep their tagging. -/
private theorem isTagged_swSetPort_ne {p : SwitchPort} (hp : p.id < 8) (hne : p.id ≠ q) (v : Nat) :
    IsTagged (swSetPort vlan s p) v q ↔ IsTagged s v q := by
  rw [IsTagged, IsTagged, tagged_swSetPort hp, pvid_swSetPort]
  cases p.tagged with
  | false =>
    rw [if_neg Bool.false_ne_true, if_neg Bool.false_ne_true, Function.update_of_ne hne.symm,
      and_iff_left hne.symm]
  | true =>
    rw [if_pos rfl, if_pos rfl]
    exact or_congr (or_iff_left fun h => hne h.2.symm) Iff.rfl

/-- A tagged port is tagged in the VLAN, and in the others where it was. -/
private theorem isTagged_swSetPort_tagged {p : SwitchPort} (hp : p.id < 8)
    (htagged : p.tagged = true)
    (v : Nat) (h : v = vlan ∨ IsTagged s v p.id) : IsTagged (swSetPort vlan s p) v p.id := by
  rw [IsTagged, tagged_swSetPort hp, pvid_swSetPort, htagged, if_pos rfl, if_pos rfl]
  rcases h with rfl | hflag | hpvid
  · by_cases hown : v = (s.pvid p.id).toNat
    · exact .inl (.inr ⟨hown, rfl⟩)
    · exact .inr (Ne.symm hown)
  · exact .inl (.inl hflag)
  · exact .inr hpvid

/-- An untagged port is tagged in the other VLANs, as its PVID is this one. -/
private theorem isTagged_swSetPort_untagged (hvlan : vlan < dev.vlans) {p : SwitchPort}
    (htagged : p.tagged = false) {v : Nat} (hv : v ≠ vlan) :
    IsTagged (swSetPort vlan s p) v p.id := by
  have h4096 : dev.vlans = 4096 := rfl
  rw [IsTagged, pvid_swSetPort, htagged, if_neg Bool.false_ne_true, Function.update_self,
    UInt16.toNat_ofNat']
  omega

/-- One more entry of a list. -/
theorem Turn.next (ht : Turn s0 vlan q s e) (hvlan : vlan < dev.vlans) {p : SwitchPort}
    (hp : p.id < dev.ports) :
    Turn s0 vlan q (swSetPort vlan s p) (if p.id = q then some p.tagged else e) := by
  have hp8 : p.id < 8 := Nat.lt_of_lt_of_le hp dev.ports_le
  have hmember (h : Member s.toPriv vlan q ∨ q = p.id) :
      Member (swSetPort vlan s p).toPriv vlan q := by
    rw [Member, vlanTable_swSetPort, Function.update_self, getLsbD_or_bit hp8]
    exact h
  -- the port's `PVID` may change, to one that is a VLAN id
  have hids : Ids (swSetPort vlan s p) :=
    { vlanId := by
        rw [vlanId_swSetPort]
        exact ht.ids.vlanId
      pvid_lt := by
        rw [pvid_swSetPort]
        split
        · exact ht.ids.pvid_lt
        · exact update_pvid_lt ht.ids hvlan p.id }
  have htable (v : Nat) (hv : v ≠ vlan) : (swSetPort vlan s p).vlanTable v = s0.vlanTable v := by
    rw [vlanTable_swSetPort, Function.update_of_ne hv]
    exact ht.table v hv
  -- the entry is for port `q`, or it leaves the tagging of `q` alone
  by_cases hq : p.id = q
  · subst hq
    rw [if_pos rfl]
    refine ⟨hids, htable, fun v hv h0 => ?_, fun _ => ⟨hp, hmember (.inr rfl)⟩, fun hown => ?_⟩
    · cases htagged : p.tagged with
      | true => exact isTagged_swSetPort_tagged hp8 htagged v (.inr (ht.other v hv h0))
      | false => exact isTagged_swSetPort_untagged hvlan htagged hv
    · exact isTagged_swSetPort_tagged hp8 (Option.some.inj hown) vlan (.inl rfl)
  · rw [if_neg hq]
    refine ⟨hids, htable, fun v hv h0 => ?_, fun he => ?_, fun hown => ?_⟩
    · rw [isTagged_swSetPort_ne hp8 hq]
      exact ht.other v hv h0
    · obtain ⟨hlt, hmem⟩ := ht.listed he
      exact ⟨hlt, hmember (.inl hmem)⟩
    · rw [isTagged_swSetPort_ne hp8 hq]
      exact ht.own hown

/-- The entries of a list, the last one for a port counting. -/
theorem Turn.foldl (ht : Turn s0 vlan q s e) (hvlan : vlan < dev.vlans) {ports : List SwitchPort}
    (hports : ∀ p ∈ ports, p.id < dev.ports) :
    Turn s0 vlan q (ports.foldl (swSetPort vlan) s)
      (ports.foldl (fun e p => if p.id = q then some p.tagged else e) e) := by
  induction ports generalizing s e with
  | nil => exact ht
  | cons p ports ih =>
    obtain ⟨hp, htail⟩ := List.forall_mem_cons.mp hports
    exact ih (ht.next hvlan hp) htail

end SetPorts

/-! ### `set_port_pvid` -/

/-- Ports for which the PVID is set on the way -/
def SetsFor (ports : List SwitchPort) (q : Nat) : Prop := ∃ p ∈ ports, p.tagged = false ∧ p.id = q

/-- A PVID in range is set. -/
private theorem swSetPvid_eq (s : Priv) {port vlan : Nat} (hport : port < dev.ports)
    (hvlan : vlan < dev.vlans) : swSetPvid s port (Int.ofNat vlan) =
      ({ s with pvid := Function.update s.pvid port (UInt16.ofNat vlan) }, .ok ()) := by
  rw [swSetPvid, Ar8216.swSetPvid_eq s.toPriv hport hvlan]

/-- Only PVIDs are set to the VLAN, those of the untagged ports. -/
theorem setPvids_spec (s : Priv) {vlan : Nat} (hvlan : vlan < dev.vlans) (ports : List SwitchPort)
    (hports : ∀ p ∈ ports, p.id < dev.ports) :
    ∃ pvid, setPvids swSetPvid vlan s ports = { s with pvid := pvid } ∧
      ∀ q, (SetsFor ports q → pvid q = UInt16.ofNat vlan) ∧
        (¬SetsFor ports q → pvid q = s.pvid q) := by
  -- Induction on the list: the last untagged entry of a port sets its PVID.
  induction ports generalizing s with
  | nil =>
    exact ⟨s.pvid, rfl, fun q => ⟨fun ⟨_, hp, _⟩ => absurd hp List.not_mem_nil, fun _ => rfl⟩⟩
  | cons p ports ih =>
    obtain ⟨hp, htail⟩ := List.forall_mem_cons.mp hports
    have hcons (q : Nat) : SetsFor (p :: ports) q ↔
        (p.tagged = false ∧ p.id = q) ∨ SetsFor ports q := List.exists_mem_cons_iff ..
    simp only [hcons]
    cases htagged : p.tagged with
    | true =>
      have hstep : setPvids swSetPvid vlan s (p :: ports) = setPvids swSetPvid vlan s ports := by
        rw [setPvids, List.foldl_cons, htagged]
        rfl
      simp only [hstep, Bool.true_eq_false, false_and, false_or]
      exact ih s htail
    | false =>
      have hstep : setPvids swSetPvid vlan s (p :: ports) = setPvids swSetPvid vlan
          { s with pvid := Function.update s.pvid p.id (UInt16.ofNat vlan) } ports := by
        rw [setPvids, List.foldl_cons, htagged, swSetPvid_eq s hp hvlan]
        rfl
      obtain ⟨pvid, heq, hpvid⟩ :=
        ih { s with pvid := Function.update s.pvid p.id (UInt16.ofNat vlan) } htail
      refine ⟨pvid, hstep.trans heq, fun q => ⟨?_, ?_⟩⟩
      · rintro (⟨-, rfl⟩ | hlater)
        · -- a later entry sets the same PVID
          by_cases hagain : SetsFor ports p.id
          · exact (hpvid p.id).1 hagain
          · exact ((hpvid p.id).2 hagain).trans (Function.update_self ..)
        · exact (hpvid q).1 hlater
      -- no entry sets the PVID of `q`
      · intro hnone
        rw [not_or] at hnone
        exact ((hpvid q).2 hnone.2).trans
          (Function.update_of_ne (fun h => hnone.1 ⟨rfl, h.symm⟩) _ _)

/-- A request for ports is refused before anything is done, is rejected for a port, or is accepted. -/
private theorem setVlanPorts_cases (s : Priv) (vlan : Nat) (ports : List SwitchPort) :
    (¬(vlan < dev.vlans ∧ ports.length ≤ dev.ports) ∧
      setVlanPorts switchDev s vlan ports = (s, .error .einval)) ∨
    (vlan < dev.vlans ∧ ports.length ≤ dev.ports) ∧
      ((∃ p ∈ ports, p.id ≥ dev.ports) ∧ setVlanPorts switchDev s vlan ports =
          (setPvids swSetPvid vlan s (validPrefix switchDev ports), .error .einval) ∨
        (∀ p ∈ ports, p.id < dev.ports) ∧ setVlanPorts switchDev s vlan ports =
          swSetPorts (setPvids swSetPvid vlan s ports) vlan ports) := by
  rw [setVlanPorts]
  by_cases hvlan : vlan < dev.vlans
  · by_cases hlen : ports.length ≤ dev.ports
    · refine .inr ⟨⟨hvlan, hlen⟩, ?_⟩
      rw [if_neg (show ¬vlan ≥ switchDev.vlans from Nat.not_le.mpr hvlan),
        if_neg (show ¬ports.length > switchDev.ports from Nat.not_lt.mpr hlen),
        show switchDev.setVlanPorts = some swSetPorts from rfl]
      have hfst := checkPorts_fst (show switchDev.setPortPvid = some swSetPvid from rfl) vlan ports s
      have hsnd := checkPorts_snd switchDev vlan ports s
      simp only
      -- the PVIDs are set up to the first port that does not exist
      by_cases hids : ∀ p ∈ ports, p.id < dev.ports
      -- all ports exist: the check goes through them all
      · have hall : validPrefix switchDev ports = ports :=
          List.takeWhile_eq_self_iff.mpr fun p hp => decide_eq_true (hids p hp)
        rw [hall] at hfst
        rw [show switchDev.ports = dev.ports from rfl, if_pos hids] at hsnd
        have hcheck : checkPorts switchDev vlan ports s =
            (setPvids swSetPvid vlan s ports, .ok ()) := Prod.ext hfst hsnd
        refine .inr ⟨hids, ?_⟩
        rw [hcheck]
      · rw [show switchDev.ports = dev.ports from rfl, if_neg hids] at hsnd
        have hcheck : checkPorts switchDev vlan ports s =
            (setPvids swSetPvid vlan s (validPrefix switchDev ports), .error .einval) :=
          Prod.ext hfst hsnd
        refine .inl ⟨?_, ?_⟩
        · simpa using hids
        · rw [hcheck]
    · refine .inl ⟨fun h => hlen h.2, ?_⟩
      rw [if_neg (show ¬vlan ≥ switchDev.vlans from Nat.not_le.mpr hvlan),
        if_pos (show ports.length > switchDev.ports from Nat.lt_of_not_le hlen)]
  · exact .inl ⟨fun h => hvlan h.1, if_pos (Nat.le_of_not_lt hvlan)⟩

/-- The entries whose PVID is set keep what was asked for, exactly if every port of the VLAN that
    has no other reason to be tagged is in the set of tagged ports. -/
private theorem isTagged_setPvids_iff {s : St} (hs : Inv s) {vlan : Nat} (hvlan : vlan < dev.vlans)
    {ports : List SwitchPort} {pvid : Nat → UInt16}
    (hpvid : ∀ q, (SetsFor ports q → pvid q = UInt16.ofNat vlan) ∧
      (¬SetsFor ports q → pvid q = s.priv.pvid q)) :
    (∀ v < dev.vlans, ∀ q, AskedTagged s v q → IsTagged { s.priv with pvid := pvid } v q) ↔
      ∀ q, SetsFor ports q → Keeps s vlan q := by
  have h4096 : dev.vlans = 4096 := rfl
  constructor
  -- a port whose `PVID` becomes this VLAN is tagged in it by its flag alone
  · intro h q hset hasked
    rcases h vlan hvlan q hasked with hflag | hne
    · exact hflag
    · refine absurd ?_ hne
      show (pvid q).toNat = vlan
      rw [(hpvid q).1 hset, UInt16.toNat_ofNat']
      omega
  · intro h v hv q hasked
    by_cases hset : SetsFor ports q
    · by_cases hown : v = vlan
      · subst hown
        exact .inl (h q hset hasked)
      · refine .inr ?_
        show (pvid q).toNat ≠ v
        rw [(hpvid q).1 hset, UInt16.toNat_ofNat']
        omega
    · refine (hs.tagged v hv q hasked).imp_right fun hne => ?_
      show (pvid q).toNat ≠ v
      rw [(hpvid q).2 hset]
      exact hne

/-! ### Steps -/

/-- Setting PVIDs in range keeps them in range. -/
private theorem ids_setPvids {s : Priv} (hs : Ids s) {vlan : Nat} (hvlan : vlan < dev.vlans)
    {ports : List SwitchPort} {pvid : Nat → UInt16}
    (hpvid : ∀ q, (SetsFor ports q → pvid q = UInt16.ofNat vlan) ∧
      (¬SetsFor ports q → pvid q = s.pvid q)) : Ids { s with pvid := pvid } where
  vlanId := hs.vlanId
  pvid_lt q := by
    have h4096 : dev.vlans = 4096 := rfl
    show (pvid q).toNat < dev.vlans
    by_cases hset : SetsFor ports q
    · rw [(hpvid q).1 hset, UInt16.toNat_ofNat']
      omega
    · rw [(hpvid q).2 hset]
      exact hs.pvid_lt q

/-- A step that only sets PVIDs to a VLAN -/
theorem step_setPvids {s : St} (hs : Inv s) {vlan : Nat} (hvlan : vlan < dev.vlans)
    (ports : List SwitchPort) (pvid : Nat → UInt16)
    (hpvid : ∀ q, (SetsFor ports q → pvid q = UInt16.ofNat vlan) ∧
      (¬SetsFor ports q → pvid q = s.priv.pvid q)) :
    ((∀ q, SetsFor ports q → Keeps s vlan q) →
      Inv { s with priv := { s.priv with pvid := pvid } }) ∧
    (Stable { s with priv := { s.priv with pvid := pvid } } →
      ∀ q, SetsFor ports q → Keeps s vlan q) := by
  have hiff := isTagged_setPvids_iff hs hvlan hpvid
  constructor
  · intro hkeeps
    exact { ids := ids_setPvids hs.ids hvlan hpvid
            listed := hs.listed
            tagged := hiff.mpr hkeeps }
  · intro hstable
    exact hiff.mp fun v hv q hasked => hstable.isTagged hv hasked

/-- A list that is accepted -/
private theorem inv_setPorts {s : St} (hs : Inv s) {vlan : Nat} (hvlan : vlan < dev.vlans)
    {ports : List SwitchPort} (hports : ∀ p ∈ ports, p.id < dev.ports) {pvid : Nat → UInt16}
    (hpvid : ∀ q, (SetsFor ports q → pvid q = UInt16.ofNat vlan) ∧
      (¬SetsFor ports q → pvid q = s.priv.pvid q)) :
    Inv { priv := (swSetPorts { s.priv with pvid := pvid } vlan ports).1
          asked := Function.update s.asked vlan ports } := by
  have h4096 : dev.vlans = 4096 := rfl
  -- what the loop starts from, and how it ends for port `q`
  have hturn (q : Nat) : Turn s.priv vlan q
      (swSetPorts { s.priv with pvid := pvid } vlan ports).1 (entry q ports) := by
    refine Turn.foldl ?_ hvlan hports
    have hids := ids_setPvids hs.ids hvlan hpvid
    refine ⟨⟨hids.vlanId, hids.pvid_lt⟩, fun v hv => Function.update_of_ne hv _ _,
      fun v hv h0 => h0.imp_right fun hne => ?_, fun h => absurd rfl h, fun h => by cases h⟩
    show (pvid q).toNat ≠ v
    by_cases hset : SetsFor ports q
    · rw [(hpvid q).1 hset, UInt16.toNat_ofNat']
      omega
    · rw [(hpvid q).2 hset]
      exact hne
  -- the tagging asked for is that of this list, or an older one of another VLAN
  have hasked {v q : Nat} (h : entry q (Function.update s.asked vlan ports v) = some true) :
      v = vlan ∧ entry q ports = some true ∨ v ≠ vlan ∧ AskedTagged s v q := by
    by_cases hv : v = vlan
    · rw [hv, Function.update_self] at h
      exact .inl ⟨hv, h⟩
    · rw [Function.update_of_ne hv] at h
      exact .inr ⟨hv, h⟩
  constructor
  · exact (hturn 0).ids
  · intro v hv q h
    rcases hasked h with ⟨rfl, hown⟩ | ⟨hne, hother⟩
    · exact (hturn q).listed (by rw [hown]; exact Option.some_ne_none _)
    · obtain ⟨hq, hmem⟩ := hs.listed v hv q hother
      rw [Member] at hmem ⊢
      rw [(hturn q).table v hne]
      exact ⟨hq, hmem⟩
  · intro v hv q h
    rcases hasked h with ⟨rfl, hown⟩ | ⟨hne, hother⟩
    · exact (hturn q).own hown
    · exact (hturn q).other v hne (hs.tagged v hv q hother)

/-- A request for a PVID sets it, or is out of range and changes nothing. -/
private theorem setPvid_cases (s : Priv) (port : Nat) (vlan : Int) :
    (∃ v : Nat, vlan = Int.ofNat v ∧ v < dev.vlans ∧ port < dev.ports ∧
      (setPvid switchDev s port vlan).1 =
        { s with pvid := Function.update s.pvid port (UInt16.ofNat v) }) ∨
    (¬(port < dev.ports ∧ ∃ v : Nat, vlan = Int.ofNat v ∧ v < dev.vlans)) ∧
      (setPvid switchDev s port vlan).1 = s := by
  rw [setPvid]
  by_cases hport : port < dev.ports
  · rw [if_neg (show ¬port ≥ switchDev.ports from Nat.not_le.mpr hport),
      show switchDev.setPortPvid = some swSetPvid from rfl]
    simp only
    -- the driver takes a VLAN number, and the value may be negative or too large
    by_cases hv : ∃ v : Nat, vlan = Int.ofNat v ∧ v < dev.vlans
    · obtain ⟨v, rfl, hv⟩ := hv
      refine .inl ⟨v, rfl, hv, hport, ?_⟩
      rw [swSetPvid_eq s hport hv]
    · refine .inr ⟨fun h => hv h.2, ?_⟩
      rw [swSetPvid, Ar8216.swSetPvid, if_pos]
      by_contra hrange
      rw [not_or, not_or, Int.not_lt] at hrange
      obtain ⟨v, rfl⟩ := Int.eq_ofNat_of_zero_le hrange.1
      exact hv ⟨v, rfl, Int.ofNat_lt.mp (Int.lt_of_not_ge hrange.2.1)⟩
  · exact .inr ⟨fun h => hport h.1, by rw [if_pos (show port ≥ switchDev.ports from
      Nat.le_of_not_lt hport)]⟩

/-- A request keeps what was asked for exactly if it is harmless. -/
theorem step_spec {s : St} (hs : Inv s) (r : Request) :
    (Harmless s r → Inv (step s r)) ∧ (Stable (step s r) → Harmless s r) := by
  cases r with
  | setVlan i => exact ⟨fun _ => ⟨⟨hs.ids.vlanId, hs.ids.pvid_lt⟩, hs.listed, hs.tagged⟩,
      fun _ => trivial⟩
  | setPvid port vlan =>
    rw [step, Harmless]
    rcases setPvid_cases s.priv port vlan with ⟨v, rfl, hv, hport, heq⟩ | ⟨hrefused, heq⟩
    -- the request sets the PVID of one port
    · rw [heq]
      have hsets (q : Nat) : SetsFor [⟨port, false⟩] q ↔ port = q := by
        simp [SetsFor]
      obtain ⟨hinv, hback⟩ := step_setPvids hs hv [⟨port, false⟩]
        (Function.update s.priv.pvid port (UInt16.ofNat v)) (fun q => by
          rw [hsets, Function.update_apply]
          exact ⟨fun h => if_pos h.symm, fun h => if_neg (Ne.symm h)⟩)
      simp only [hsets, forall_eq'] at hinv hback
      constructor
      · exact fun h => hinv (h hport v rfl hv)
      · intro hstable _ w hw _
        rw [← Int.ofNat.inj hw]
        exact hback hstable
    -- it is refused
    · rw [heq]
      exact ⟨fun _ => hs, fun _ hport v hvlan hv => absurd ⟨hport, v, hvlan, hv⟩ hrefused⟩
  | setVlanPorts vlan ports =>
    rw [step, Harmless]
    rcases setVlanPorts_cases s.priv vlan ports with
      ⟨hrefused, heq⟩ | ⟨⟨hvlan, hlen⟩, ⟨hinvalid, heq⟩ | ⟨hvalid, heq⟩⟩
    -- refused before anything is done
    · rw [heq]
      exact ⟨fun _ => hs, fun _ hvlan hlen => absurd ⟨hvlan, hlen⟩ hrefused⟩
    -- rejected for a port: the PVIDs in front of it are set
    · obtain ⟨pvid, hset, hpvid⟩ := setPvids_spec s.priv hvlan
        (validPrefix switchDev ports) fun p hp => mem_validPrefix hp
      rw [heq, hset]
      obtain ⟨hinv, hback⟩ := step_setPvids hs hvlan _ pvid hpvid
      constructor
      · intro h
        refine hinv fun q hq => ?_
        obtain ⟨p, hp, htagged, rfl⟩ := hq
        exact h hvlan hlen hinvalid p hp htagged
      · exact fun hstable _ _ _ p hp htagged => hback hstable p.id ⟨p, hp, htagged, rfl⟩
    -- accepted
    · obtain ⟨pvid, hset, hpvid⟩ := setPvids_spec s.priv hvlan ports hvalid
      rw [heq, hset]
      refine ⟨fun _ => inv_setPorts hs hvlan hvalid hpvid, fun _ _ _ hinvalid => ?_⟩
      obtain ⟨p, hp, hid⟩ := hinvalid
      exact absurd (hvalid p hp) (Nat.not_lt.mpr hid)

/-! ### Runs -/

/-- After a reset, what was asked for stays in force exactly if every request is harmless. -/
theorem run_stable_iff (priv : Priv) (requests : List Request) :
    Along step (fun _ _ s' => Stable s') (start priv) requests ↔
      Along step (fun s r _ => Harmless s r) (start priv) requests := by
  have hkeep : ∀ s r, Inv s → True → Harmless s r → Inv (step s r) ∧ Stable (step s r) := by
    intro s r hs _ hharm
    have hinv := (step_spec hs r).1 hharm
    exact ⟨hinv, hinv.stable⟩
  have hbreak : ∀ s r, Inv s → True → Stable (step s r) → Harmless s r :=
    fun s r hs _ => (step_spec hs r).2
  exact Along.iff_of_invariant hkeep hbreak (inv_start priv) (Along.of_forall fun _ _ => trivial)

def samplePriv : Priv :=
  { init := false, vlanId := fun _ => 0, vlanTable := fun _ => 0, vlanTagged := 0
    pvid := fun _ => 0, vlan := false }

/-- Port 1 is set tagged in VLAN 2, and then VLAN 2 becomes its PVID. -/
theorem run_not_stable :
    ¬Along step (fun _ _ s' => Stable s') (start samplePriv)
      [.setVlanPorts 2 [⟨0, true⟩, ⟨1, true⟩], .setPvid 1 2] := by
  rw [Along, Along]
  rintro ⟨-, hstable, -⟩
  obtain ⟨hmem, -⟩ := hstable 2 (by decide) 1 rfl
  have htagged := (mem_swGetPorts.mp hmem).2.2
  rcases htagged with hflag | hpvid
  · rw [Tagged] at hflag
    exact absurd hflag (by decide)
  · exact hpvid rfl

end HandsomeMod.Native.Ar8327
