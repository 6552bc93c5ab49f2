import HandsomeMod.Native.Ar8216

/-!
# Port isolation of the AR8216 family

After any requests a port that is not tagged is a member of at most one VLAN, and ports can send to
each other exactly if they share a VLAN.
-/

namespace HandsomeMod.Native.Ar8216

open Swconfig

variable {dev : Dev} {s : Priv}

/-- The port is a member of the VLAN. -/
def Member (s : Priv) (vlan port : Nat) : Prop := (s.vlanTable vlan).getLsbD port = true

/-- The port is marked as tagged. -/
def Tagged (s : Priv) (port : Nat) : Prop := s.vlanTagged.getLsbD port = true

/-! ### Bits -/

/-- `BIT(port)` has the bit of its port only. -/
private theorem getLsbD_bit {port q : Nat} (hport : port < 8) :
    (bit port).getLsbD q = true ↔ q = port := by
  rw [bit, BitVec.getLsbD_twoPow]
  simp only [hport, decide_true, Bool.true_and, decide_eq_true_eq]
  exact eq_comm

/-- Setting the bit of a port. -/
theorem getLsbD_or_bit {x : BitVec 8} {port q : Nat} (hport : port < 8) :
    (x ||| bit port).getLsbD q = true ↔ x.getLsbD q = true ∨ q = port := by
  rw [BitVec.getLsbD_or, Bool.or_eq_true, getLsbD_bit hport]

/-- Clearing the bit of a port. -/
theorem getLsbD_and_not_bit {x : BitVec 8} {port q : Nat} (hport : port < 8) :
    (x &&& ~~~bit port).getLsbD q = true ↔ x.getLsbD q = true ∧ q ≠ port := by
  rw [BitVec.getLsbD_and, Bool.and_eq_true, BitVec.getLsbD_not, Bool.and_eq_true,
    decide_eq_true_eq, Bool.not_eq_true', ← Bool.not_eq_true, getLsbD_bit hport]
  constructor
  · rintro ⟨hx, -, hne⟩
    exact ⟨hx, hne⟩
  · rintro ⟨hx, hne⟩
    exact ⟨hx, BitVec.lt_of_getLsbD hx, hne⟩

/-- Testing the bit of a port. -/
theorem and_bit_ne_zero {x : BitVec 8} {port : Nat} : x &&& bit port ≠ 0 ↔ x.getLsbD port = true := by
  rw [bit, BitVec.and_twoPow]
  by_cases hx : x.getLsbD port = true
  · have hport := BitVec.lt_of_getLsbD hx
    rw [if_pos hx]
    refine ⟨fun _ => hx, fun _ hzero => ?_⟩
    have hself := (getLsbD_bit hport).mpr rfl
    rw [bit, hzero] at hself
    simp at hself
  · rw [if_neg hx]
    exact ⟨fun hne => absurd rfl hne, fun hpos => absurd hpos hx⟩

/-! ### `ar8xxx_sw_set_ports` -/

/-- A port joins its VLAN, and leaves the others if it is untagged. -/
private theorem vlanTable_swSetPort (vlan : Nat) (p : SwitchPort) (w : Nat) :
    (swSetPort dev vlan s p).vlanTable w =
      if w = vlan then s.vlanTable w ||| bit p.id
      else if w < dev.vlans ∧ p.tagged = false then s.vlanTable w &&& ~~~bit p.id
      else s.vlanTable w := by
  by_cases hw : w = vlan
  · subst hw
    cases htagged : p.tagged <;> simp [swSetPort, leaveOthers, htagged]
  · cases htagged : p.tagged <;> simp [swSetPort, leaveOthers, htagged, hw]

/-- A port is tagged or not by its last entry in a list. -/
private theorem vlanTagged_swSetPort (vlan : Nat) (p : SwitchPort) :
    (swSetPort dev vlan s p).vlanTagged =
      if p.tagged then s.vlanTagged ||| bit p.id else s.vlanTagged &&& ~~~bit p.id := by
  cases htagged : p.tagged <;> simp [swSetPort, leaveOthers, htagged]

/-- Who is a member after a port of the list was entered. -/
private theorem member_swSetPort {vlan : Nat} {p : SwitchPort} (hp : p.id < 8) {w q : Nat} :
    Member (swSetPort dev vlan s p) w q ↔
      if w = vlan then Member s w q ∨ q = p.id
      else Member s w q ∧ (w < dev.vlans → p.tagged = false → q ≠ p.id) := by
  rw [Member, vlanTable_swSetPort]
  by_cases hw : w = vlan
  · rw [if_pos hw, if_pos hw, getLsbD_or_bit hp]
    rfl
  · rw [if_neg hw, if_neg hw]
    by_cases hout : w < dev.vlans ∧ p.tagged = false
    · rw [if_pos hout, getLsbD_and_not_bit hp]
      exact ⟨fun hmem => ⟨hmem.1, fun _ _ => hmem.2⟩, fun hmem => ⟨hmem.1, hmem.2 hout.1 hout.2⟩⟩
    · rw [if_neg hout]
      exact ⟨fun hmem => ⟨hmem, fun hlt htagged => absurd ⟨hlt, htagged⟩ hout⟩, fun hmem => hmem.1⟩

/-- The last entry of a port decides whether it is tagged. -/
private theorem tagged_swSetPort {vlan : Nat} {p : SwitchPort} (hp : p.id < 8) {q : Nat} :
    Tagged (swSetPort dev vlan s p) q ↔ if q = p.id then p.tagged = true else Tagged s q := by
  rw [Tagged, vlanTagged_swSetPort]
  cases htagged : p.tagged with
  -- the port's bit is set
  | true =>
    rw [if_pos rfl, getLsbD_or_bit hp]
    split
    · rename_i hq
      exact ⟨fun _ => rfl, fun _ => .inr hq⟩
    · rename_i hq
      exact ⟨fun hor => hor.resolve_right hq, .inl⟩
  -- the port's bit is cleared
  | false =>
    rw [if_neg Bool.false_ne_true, getLsbD_and_not_bit hp]
    split
    · rename_i hq
      exact ⟨fun hand => absurd hq hand.2, fun hfalse => absurd hfalse Bool.false_ne_true⟩
    · rename_i hq
      exact ⟨fun hand => hand.1, fun hmem => ⟨hmem, hq⟩⟩

/-- A port that is not tagged is a member of at most one VLAN. -/
def Untagged (dev : Dev) (s : Priv) : Prop :=
  ∀ q, ¬Tagged s q → ∀ v < dev.vlans, ∀ w < dev.vlans, Member s v q → Member s w q → v = w

/-- An untagged port stays in one VLAN when an entry of a list is set. -/
theorem Untagged.swSetPort (hs : Untagged dev s) {vlan : Nat} {p : SwitchPort} (hp : p.id < 8) :
    Untagged dev (swSetPort dev vlan s p) := by
  intro q hq v hv w hw hmemv hmemw
  rw [tagged_swSetPort hp] at hq
  rw [member_swSetPort hp] at hmemv hmemw
  by_cases hqp : q = p.id
  · -- the port was entered as untagged, and is only in this VLAN
    rw [if_pos hqp] at hq
    -- the request takes an untagged port out of every other VLAN
    have honly : ∀ x < dev.vlans, (if x = vlan then Member s x q ∨ q = p.id
        else Member s x q ∧ (x < dev.vlans → p.tagged = false → q ≠ p.id)) → x = vlan := by
      intro x hx hmem
      by_contra hne
      rw [if_neg hne] at hmem
      exact hmem.2 hx (Bool.not_eq_true _ ▸ hq) hqp
    rw [honly v hv hmemv, honly w hw hmemw]
  · rw [if_neg hqp] at hq
    -- the other ports keep their VLANs
    have hold : ∀ x, (if x = vlan then Member s x q ∨ q = p.id
        else Member s x q ∧ (x < dev.vlans → p.tagged = false → q ≠ p.id)) → Member s x q := by
      intro x hmem
      split at hmem
      · exact hmem.resolve_right hqp
      · exact hmem.1
    exact hs q hq v hv w hw (hold v hmemv) (hold w hmemw)

/-! ### A list of ports -/

/-- The VLANs other than `vlan` lose the ports that are untagged in the list, `vlan` gets all. -/
theorem member_foldl {vlan : Nat} {ports : List SwitchPort} (hports : ∀ p ∈ ports, p.id < 8)
    {w q : Nat} (hw : w < dev.vlans) :
    Member (ports.foldl (swSetPort dev vlan) s) w q ↔
      if w = vlan then Member s w q ∨ ∃ p ∈ ports, p.id = q
      else Member s w q ∧ ∀ p ∈ ports, p.tagged = false → p.id ≠ q := by
  induction ports generalizing s with
  | nil => split <;> simp
  | cons p ports ih =>
    have hp := hports p List.mem_cons_self
    rw [List.foldl_cons, ih fun p' hp' => hports p' (List.mem_cons_of_mem p hp'),
      member_swSetPort hp]
    by_cases hwv : w = vlan
    · simp only [if_pos hwv, List.exists_mem_cons_iff, or_assoc, eq_comm (a := q)]
    · simp only [if_neg hwv, List.forall_mem_cons, hw, forall_const, and_assoc, ne_comm (a := q)]

/-- An untagged port stays in one VLAN when a list is set. -/
private theorem untagged_foldl {vlan : Nat} {ports : List SwitchPort}
    (hports : ∀ p ∈ ports, p.id < 8)
    (hs : Untagged dev s) : Untagged dev (ports.foldl (swSetPort dev vlan) s) := by
  induction ports generalizing s with
  | nil => exact hs
  | cons p ports ih =>
    exact ih (fun p' hp' => hports p' (List.mem_cons_of_mem p hp'))
      (hs.swSetPort (hports p List.mem_cons_self))

/-- Without its members a VLAN gives no port a second one. -/
theorem Untagged.clear (hs : Untagged dev s) (vlan : Nat) :
    Untagged dev { s with vlanTable := Function.update s.vlanTable vlan 0 } := by
  have hold : ∀ x q, Member { s with vlanTable := Function.update s.vlanTable vlan 0 } x q →
      Member s x q := by
    intro x q hmem
    rw [Member] at hmem ⊢
    by_cases hx : x = vlan
    · simp [hx] at hmem
    · simpa [hx] using hmem
  intro q hq v hv w hw hmemv hmemw
  exact hs q hq v hv w hw (hold v q hmemv) (hold w q hmemw)

/-! ### Requests -/

/-- What does not change when only PVIDs are set. -/
def SameVlans (s s' : Priv) : Prop :=
  s'.vlanTable = s.vlanTable ∧ s'.vlanTagged = s.vlanTagged ∧ s'.init = s.init

/-- A PVID is set for a port and a VLAN that exist. -/
theorem swSetPvid_eq (s : Priv) {port vlan : Nat} (hport : port < dev.ports)
    (hvlan : vlan < dev.vlans) : swSetPvid dev s port (Int.ofNat vlan) =
      ({ s with pvid := Function.update s.pvid port (UInt16.ofNat vlan) }, .ok ()) := by
  have hle := dev.ports_le
  have hlt := Int.ofNat_lt.mpr hvlan
  have hcast : UInt16.ofInt (Int.ofNat vlan) = UInt16.ofNat vlan := by
    apply UInt16.toNat_inj.mp
    rw [UInt16.ofInt, UInt16.toNat_ofNat', UInt16.toNat_ofNat', Int.ofNat_eq_natCast]
    omega
  rw [swSetPvid, if_neg, hcast]
  simp only [Int.ofNat_eq_natCast]
  omega

/-- Setting a PVID changes no VLAN. -/
private theorem swSetPvid_same (s : Priv) (port : Nat) (vlan : Int) :
    SameVlans s (swSetPvid dev s port vlan).1 := by
  rw [swSetPvid]
  split <;> exact ⟨rfl, rfl, rfl⟩

/-- The check of a list sets PVIDs and changes no VLAN. -/
private theorem checkPorts_same (dev : Dev) (portVlan : Nat) (ports : List SwitchPort) (s : Priv) :
    SameVlans s (checkPorts (switchDev dev) portVlan ports s).1 ∧
    ((checkPorts (switchDev dev) portVlan ports s).2 = .ok () → ∀ p ∈ ports, p.id < dev.ports) := by
  -- a `PVID` that is set changes no table
  induction ports generalizing s with
  | nil => exact ⟨⟨rfl, rfl, rfl⟩, fun _ p hp => absurd hp List.not_mem_nil⟩
  | cons p ports ih =>
    rw [checkPorts]
    by_cases hp : p.id ≥ (switchDev dev).ports
    · rw [if_pos hp]
      exact ⟨⟨rfl, rfl, rfl⟩, fun h => by cases h⟩
    · rw [if_neg hp]
      have hsame : SameVlans s (if p.tagged then s else (swSetPvid dev s p.id portVlan).1) := by
        split
        · exact ⟨rfl, rfl, rfl⟩
        · exact swSetPvid_same s p.id portVlan
      obtain ⟨⟨htable, htagged, hinit⟩, hids⟩ :=
        ih (if p.tagged then s else (swSetPvid dev s p.id portVlan).1)
      refine ⟨⟨htable.trans hsame.1, htagged.trans hsame.2.1, hinit.trans hsame.2.2⟩, ?_⟩
      intro hok p' hp'
      obtain rfl | htail := List.mem_cons.mp hp'
      · exact Nat.lt_of_not_le hp
      · exact hids hok p' htail

/-- `swconfig_set_vlan_ports` leaves the VLANs alone, or checks the list and sets the ports. -/
theorem setVlanPorts_cases (dev : Dev) (s : Priv) (portVlan : Nat) (ports : List SwitchPort) :
    (∃ e, (setVlanPorts (switchDev dev) s portVlan ports).2 = .error e) ∧
      SameVlans s (setVlanPorts (switchDev dev) s portVlan ports).1 ∨
    (setVlanPorts (switchDev dev) s portVlan ports).2 = .ok () ∧ portVlan < dev.vlans ∧
      (∀ p ∈ ports, p.id < 8) ∧ ∃ s1, SameVlans s s1 ∧
      (setVlanPorts (switchDev dev) s portVlan ports).1 = (swSetPorts dev s1 portVlan ports).1 := by
  obtain ⟨hsame, hids⟩ := checkPorts_same dev portVlan ports s
  rw [setVlanPorts]
  by_cases hvlan : portVlan ≥ (switchDev dev).vlans
  · rw [if_pos hvlan]
    exact .inl ⟨⟨_, rfl⟩, rfl, rfl, rfl⟩
  · rw [if_neg hvlan]
    by_cases hlen : ports.length > (switchDev dev).ports
    · rw [if_pos hlen]
      exact .inl ⟨⟨_, rfl⟩, rfl, rfl, rfl⟩
    · rw [if_neg hlen, show (switchDev dev).setVlanPorts = some (swSetPorts dev) from rfl]
      simp only
      -- the driver is called only when the check passed
      cases hcheck : checkPorts (switchDev dev) portVlan ports s with
      | mk s1 result =>
        rw [hcheck] at hsame hids
        cases result with
        | error e => exact .inl ⟨⟨e, rfl⟩, hsame⟩
        | ok u =>
          refine .inr ⟨rfl, Nat.lt_of_not_le hvlan, ?_, s1, hsame, rfl⟩
          intro p hp
          exact Nat.lt_of_lt_of_le (hids rfl p hp) dev.ports_le

/-- A request through `swconfig` -/
inductive Request where
  | setVlanPorts (vlan : Nat) (ports : List SwitchPort)
  | setPvid (port : Nat) (vlan : Int)

def request (dev : Dev) (s : Priv) : Request → Priv
  | .setVlanPorts vlan ports => (setVlanPorts (switchDev dev) s vlan ports).1
  | .setPvid port vlan => (setPvid (switchDev dev) s port vlan).1

/-- Requests after a reset -/
def run (dev : Dev) (s : Priv) (requests : List Request) : Priv :=
  requests.foldl (request dev) (swResetSwitch dev s)

/-- Members are seen in the VLAN tables. -/
theorem SameVlans.member_iff {s s' : Priv} (h : SameVlans s s') (w q : Nat) :
    Member s' w q ↔ Member s w q := by
  rw [Member, Member, h.1]

/-- Untagged ports are seen in the VLAN tables. -/
theorem SameVlans.untagged {s s' : Priv} (h : SameVlans s s') (hs : Untagged dev s) :
    Untagged dev s' := by
  intro q hq v hv w hw hmemv hmemw
  rw [Tagged, h.2.1] at hq
  rw [h.member_iff] at hmemv hmemw
  exact hs q hq v hv w hw hmemv hmemw

/-- A request for a PVID changes no VLAN. -/
private theorem setPvid_same (s : Priv) (port : Nat) (vlan : Int) :
    SameVlans s (setPvid (switchDev dev) s port vlan).1 := by
  rw [setPvid]
  split
  · exact ⟨rfl, rfl, rfl⟩
  · exact swSetPvid_same s port vlan

/-- Every request keeps untagged ports in one VLAN. -/
theorem Untagged.request (hs : Untagged dev s) (r : Request) : Untagged dev (request dev s r) := by
  cases r with
  | setVlanPorts vlan ports =>
    rw [Ar8216.request]
    obtain ⟨-, hsame⟩ | ⟨-, -, hports, s1, hsame, heq⟩ := setVlanPorts_cases dev s vlan ports
    · exact hsame.untagged hs
    · rw [heq]
      exact untagged_foldl hports ((hsame.untagged hs).clear vlan)
  | setPvid port vlan => exact (setPvid_same s port vlan).untagged hs

/-- They stay in one VLAN over a run. -/
theorem Untagged.run (dev : Dev) (s : Priv) (requests : List Request) : Untagged dev (run dev s requests) := by
  rw [Ar8216.run]
  have hreset : Untagged dev (swResetSwitch dev s) := by
    intro q _ v _ w _ hmem
    simp [Member, swResetSwitch] at hmem
  generalize swResetSwitch dev s = s0 at *
  induction requests generalizing s0 with
  | nil => exact hreset
  | cons r requests ih => exact ih _ (hreset.request r)

/-! ### Applying the configuration -/

/-- A turn of the loop over the ports lets a member of the VLAN reach the others. -/
private theorem getLsbD_addMembers {vp : BitVec 8} {portmask : Nat → BitVec 8} {i j : Nat}
    (hi : i < dev.ports) :
    (addMembers dev vp portmask i).getLsbD j = true ↔
      (portmask i).getLsbD j = true ∨
        i ≠ j ∧ vp.getLsbD i = true ∧ vp.getLsbD j = true := by
  have hi8 := Nat.lt_of_lt_of_le hi dev.ports_le
  rw [addMembers]
  -- a member of the VLAN gets all the others, any other port is unchanged
  by_cases hmem : vp.getLsbD i = true
  · rw [if_pos ⟨hi, and_bit_ne_zero.mpr hmem⟩, BitVec.getLsbD_or, Bool.or_eq_true,
      getLsbD_and_not_bit hi8]
    constructor
    · rintro (hold | ⟨hj, hne⟩)
      · exact .inl hold
      · exact .inr ⟨hne.symm, hmem, hj⟩
    · rintro (hold | ⟨hne, -, hj⟩)
      · exact .inl hold
      · exact .inr ⟨hj, hne.symm⟩
  · rw [if_neg fun hand => hmem (and_bit_ne_zero.mp hand.2)]
    exact ⟨.inl, fun hor => hor.resolve_right fun hnew => hmem hnew.2.1⟩

/-- The masks join the members of every VLAN of the list. -/
theorem getLsbD_applyVlan {vlans : List Nat} {hw : Hw} {i j : Nat} (hi : i < dev.ports) :
    ((vlans.foldl (applyVlan dev s) hw).portmask i).getLsbD j = true ↔
      (hw.portmask i).getLsbD j = true ∨
        i ≠ j ∧ ∃ v ∈ vlans, Member s v i ∧ Member s v j := by
  -- each VLAN adds its members to each other's masks
  induction vlans generalizing hw with
  | nil => simp
  | cons v vlans ih =>
    rw [List.foldl_cons, ih]
    have hstep : ((applyVlan dev s hw v).portmask i).getLsbD j = true ↔
        (hw.portmask i).getLsbD j = true ∨ i ≠ j ∧ Member s v i ∧ Member s v j := by
      rw [applyVlan]
      by_cases hempty : s.vlanTable v = 0
      · simp [hempty, Member]
      · simp only [hempty, if_false]
        exact getLsbD_addMembers hi
    rw [hstep, List.exists_mem_cons_iff]
    constructor
    · rintro ((hold | ⟨hne, hmem⟩) | ⟨hne, hrest⟩)
      · exact .inl hold
      · exact .inr ⟨hne, .inl hmem⟩
      · exact .inr ⟨hne, .inr hrest⟩
    · rintro (hold | ⟨hne, hmem | hrest⟩)
      · exact .inl (.inl hold)
      · exact .inl (.inr ⟨hne, hmem⟩)
      · exact .inr ⟨hne, hrest⟩

/-- What is promised about the VLANs. -/
structure Isolated (dev : Dev) (s : Priv) : Prop where
  /-- Ports can send to each other if they share a VLAN. -/
  mask : ∀ i < dev.ports, ∀ j,
    ((swHwApply dev { s with init := false }).portmask i).getLsbD j = true ↔
      i ≠ j ∧ ∃ v < dev.vlans, Member s v i ∧ Member s v j
  /-- A port that is not tagged is a member of at most one VLAN. -/
  untagged : Untagged dev s
  /-- The VLAN gets the ports of the list. -/
  set : ∀ vlan ports q, (setVlanPorts (switchDev dev) s vlan ports).2 = .ok () →
    (Member (setVlanPorts (switchDev dev) s vlan ports).1 vlan q ↔ ∃ p ∈ ports, p.id = q)
  /-- The other VLANs lose the ports that are untagged in the list. -/
  others : ∀ vlan ports, ∀ w < dev.vlans, w ≠ vlan → ∀ q,
    (Member (setVlanPorts (switchDev dev) s vlan ports).1 w q ↔
      Member s w q ∧ ((setVlanPorts (switchDev dev) s vlan ports).2 = .ok () →
        ∀ p ∈ ports, p.tagged = false → p.id ≠ q))
  /-- A rejected list changes no VLAN. -/
  rejected : ∀ vlan ports, (setVlanPorts (switchDev dev) s vlan ports).2 ≠ .ok () →
    ∀ w q, Member (setVlanPorts (switchDev dev) s vlan ports).1 w q ↔ Member s w q

/-- After any requests ports are isolated unless they share a VLAN. -/
theorem run_isolated (dev : Dev) (s : Priv) (requests : List Request) :
    Isolated dev (run dev s requests) := by
  have huntagged := Untagged.run dev s requests
  generalize run dev s requests = s at *
  constructor
  -- the mask is computed from the VLAN tables, once per port
  · intro i hi j
    have hzero : (0 : BitVec 8).getLsbD j = false := BitVec.getLsbD_zero
    rw [swHwApply]
    simp only [Bool.not_false, if_true]
    rw [getLsbD_applyVlan hi]
    simp only [hzero, Bool.false_eq_true, false_or, List.mem_range]
    rfl
  · exact huntagged
  -- an accepted request sets the members of its VLAN
  · intro vlan ports q hok
    obtain ⟨⟨e, herr⟩, -⟩ | ⟨-, hvlan, hports, s1, -, heq⟩ :=
      setVlanPorts_cases dev s vlan ports
    · rw [herr] at hok
      cases hok
    · rw [heq]
      refine (member_foldl hports hvlan).trans ?_
      rw [if_pos rfl]
      simp [Member]
  -- other VLANs lose no member
  · intro vlan ports w hw hne q
    obtain ⟨⟨e, herr⟩, hsame⟩ | ⟨hok, -, hports, s1, hsame, heq⟩ :=
      setVlanPorts_cases dev s vlan ports
    · rw [hsame.member_iff, herr]
      exact ⟨fun hmem => ⟨hmem, fun h => by cases h⟩, fun hmem => hmem.1⟩
    · rw [heq, hok]
      refine (member_foldl hports hw).trans ?_
      have hclear : Member { s1 with vlanTable := Function.update s1.vlanTable vlan 0 } w q ↔
          Member s w q := by
        rw [← hsame.member_iff]
        simp [Member, hne]
      rw [if_neg hne, hclear]
      exact ⟨fun hmem => ⟨hmem.1, fun _ => hmem.2⟩, fun hmem => ⟨hmem.1, hmem.2 rfl⟩⟩
  -- a rejected request changes no VLAN
  · intro vlan ports herr w q
    obtain ⟨-, hsame⟩ | ⟨hok, -⟩ := setVlanPorts_cases dev s vlan ports
    · exact hsame.member_iff w q
    · exact absurd hok herr

end HandsomeMod.Native.Ar8216
