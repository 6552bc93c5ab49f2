import HandsomeMod.Spec.Ar8216Isolation

/-!
# Rejected port lists

`swconfig_set_vlan_ports` checks the ports and sets their PVIDs in one loop, so a list that it
rejects for a port has been carried out in part: for the untagged ports in front of that port.
-/

namespace HandsomeMod.Native.Swconfig

universe u v

variable {σ : Type u} {dev : SwitchDev σ} {s : σ}

/-- The ports in front of the first one that is out of range -/
def validPrefix (dev : SwitchDev σ) (ports : List SwitchPort) : List SwitchPort :=
  ports.takeWhile fun p => decide (p.id < dev.ports)

/-- What `set_port_pvid` of a driver does to the PVIDs, for the ports and the VLANs that it has. -/
structure SetsPvid (dev : SwitchDev σ) (pvid : σ → Nat → Nat) : Prop where
  /-- A call that fails does nothing. -/
  refused : ∀ {set}, dev.setPortPvid = some set → ∀ {s port vlan}, port < dev.ports →
    vlan < dev.vlans → (set s port (Int.ofNat vlan)).2 ≠ .ok () →
      (set s port (Int.ofNat vlan)).1 = s
  /-- Nor does one for the PVID that the port has. -/
  same : ∀ {set}, dev.setPortPvid = some set → ∀ {s port vlan}, port < dev.ports →
    vlan < dev.vlans → pvid s port = vlan → (set s port (Int.ofNat vlan)).1 = s
  sets : ∀ {set}, dev.setPortPvid = some set → ∀ {s port vlan}, port < dev.ports →
    vlan < dev.vlans → (set s port (Int.ofNat vlan)).2 = .ok () →
      pvid (set s port (Int.ofNat vlan)).1 = Function.update (pvid s) port vlan

/-- The calls of `set_port_pvid` for a list of ports -/
def setPvids (set : σ → Nat → Int → Result σ) (vlan : Nat) (s : σ) (ports : List SwitchPort) : σ :=
  ports.foldl (fun s p => if p.tagged then s else (set s p.id (Int.ofNat vlan)).1) s

/-- An untagged port changes its PVID to the VLAN. -/
def Moves (set : σ → Nat → Int → Result σ) (pvid : σ → Nat → Nat) (vlan : Nat) (s : σ)
    (p : SwitchPort) : Prop :=
  p.tagged = false ∧ pvid s p.id ≠ vlan ∧ (set s p.id (Int.ofNat vlan)).2 = .ok ()

/-! ### The loop -/

/-- The check sets the PVIDs of the ports in front of the first bad one. -/
theorem checkPorts_fst {set : σ → Nat → Int → Result σ} (hset : dev.setPortPvid = some set)
    (vlan : Nat) (ports : List SwitchPort) (s : σ) :
    (checkPorts dev vlan ports s).1 = setPvids set vlan s (validPrefix dev ports) := by
  induction ports generalizing s with
  | nil => rfl
  | cons p ports ih =>
    rw [checkPorts, hset, validPrefix, List.takeWhile_cons]
    by_cases hp : p.id < dev.ports
    · rw [if_neg (Nat.not_le.mpr hp), if_pos (decide_eq_true hp)]
      exact ih _
    · rw [if_pos (Nat.le_of_not_lt hp), if_neg (mt of_decide_eq_true hp)]
      rfl

/-- Without a function for PVIDs the check changes nothing. -/
theorem checkPorts_fst_none (hset : dev.setPortPvid = none) (vlan : Nat)
    (ports : List SwitchPort) (s : σ) : (checkPorts dev vlan ports s).1 = s := by
  induction ports with
  | nil => rfl
  | cons p ports ih =>
    rw [checkPorts, hset]
    split
    · rfl
    · exact ih

/-- The check accepts lists of ports of the switch. -/
theorem checkPorts_snd (dev : SwitchDev σ) (vlan : Nat) (ports : List SwitchPort) (s : σ) :
    (checkPorts dev vlan ports s).2 =
      if ∀ p ∈ ports, p.id < dev.ports then .ok () else .error .einval := by
  induction ports generalizing s with
  | nil => rfl
  | cons p ports ih =>
    rw [checkPorts]
    simp only [List.forall_mem_cons]
    by_cases hp : p.id < dev.ports
    · simp only [ge_iff_le, Nat.not_le.mpr hp, hp, if_false, true_and]
      split
      · exact ih _
      · exact ih _
    · rw [if_pos (Nat.le_of_not_lt hp), if_neg fun h => hp h.1]

/-! ### The PVIDs -/

/-- A PVID that is the VLAN stays. -/
private theorem pvid_setPvids {pvid : σ → Nat → Nat} (law : SetsPvid dev pvid)
    {set : σ → Nat → Int → Result σ} (hset : dev.setPortPvid = some set) {vlan q : Nat}
    (hvlan : vlan < dev.vlans) {ports : List SwitchPort} (hports : ∀ p ∈ ports, p.id < dev.ports)
    (hq : pvid s q = vlan) : pvid (setPvids set vlan s ports) q = vlan := by
  induction ports generalizing s with
  | nil => exact hq
  | cons p ports ih =>
    obtain ⟨hp, htail⟩ := List.forall_mem_cons.mp hports
    refine ih htail ?_
    change pvid (if p.tagged then s else (set s p.id (Int.ofNat vlan)).1) q = vlan
    split
    · exact hq
    · by_cases hok : (set s p.id (Int.ofNat vlan)).2 = .ok ()
      · rw [law.sets hset hp hvlan hok, Function.update_apply, hq, ite_self]
      · rw [law.refused hset hp hvlan hok, hq]

/-- The calls change no PVID exactly if none of them moves a port, and then they change nothing. -/
theorem setPvids_eq_iff {pvid : σ → Nat → Nat} (law : SetsPvid dev pvid)
    {set : σ → Nat → Int → Result σ} (hset : dev.setPortPvid = some set) {vlan : Nat}
    (hvlan : vlan < dev.vlans) (ports : List SwitchPort) (hports : ∀ p ∈ ports, p.id < dev.ports) :
    ((∀ p ∈ ports, ¬Moves set pvid vlan s p) → setPvids set vlan s ports = s) ∧
      (pvid (setPvids set vlan s ports) = pvid s → ∀ p ∈ ports, ¬Moves set pvid vlan s p) := by
  -- the first port whose `PVID` is moved keeps the new one through the rest
  induction ports with
  | nil => exact ⟨fun _ => rfl, fun _ p hp => absurd hp List.not_mem_nil⟩
  | cons p ports ih =>
    obtain ⟨hp, htail⟩ := List.forall_mem_cons.mp hports
    obtain ⟨hkeep, hmoved⟩ := ih htail
    simp only [List.forall_mem_cons]
    by_cases hmoves : Moves set pvid vlan s p
    · obtain ⟨huntagged, hne, hok⟩ := hmoves
      refine ⟨fun h => absurd ⟨huntagged, hne, hok⟩ h.1, fun heq => ?_⟩
      -- the port has the VLAN as its PVID from this call on
      have hpvid : pvid (set s p.id (Int.ofNat vlan)).1 p.id = vlan := by
        rw [law.sets hset hp hvlan hok, Function.update_self]
      have hlast := pvid_setPvids law hset hvlan htail hpvid
      have hstep : setPvids set vlan s (p :: ports) =
          setPvids set vlan (set s p.id (Int.ofNat vlan)).1 ports := by
        rw [setPvids, List.foldl_cons, huntagged]
        rfl
      rw [hstep] at heq
      exact absurd (hlast.symm.trans (congrFun heq p.id)).symm hne
    · have hfirst : (if p.tagged then s else (set s p.id (Int.ofNat vlan)).1) = s := by
        cases htagged : p.tagged with
        | true => rfl
        | false =>
          by_cases hpvid : pvid s p.id = vlan
          · exact law.same hset hp hvlan hpvid
          · exact law.refused hset hp hvlan fun hok => hmoves ⟨htagged, hpvid, hok⟩
      have hstep : setPvids set vlan s (p :: ports) = setPvids set vlan s ports := by
        rw [setPvids, List.foldl_cons, hfirst]
        rfl
      rw [hstep]
      exact ⟨fun h => hkeep h.2, fun heq => ⟨hmoves, hmoved heq⟩⟩

/-! ### Rejection -/

/-- The ports in front of the first bad one are ports of the switch. -/
theorem mem_validPrefix {ports : List SwitchPort} {p : SwitchPort} (h : p ∈ validPrefix dev ports) :
    p.id < dev.ports :=
  of_decide_eq_true (List.mem_takeWhile_imp (p := fun p : SwitchPort => decide (p.id < dev.ports)) h)

/-- `swconfig_set_vlan_ports` rejects a list that is too long, a VLAN or a port that is out of
    range; then no PVID and no VLAN is changed exactly if no untagged port in front of the first
    one that is out of range is moved. -/
theorem setVlanPorts_rejected_iff {pvid : σ → Nat → Nat} (law : SetsPvid dev pvid) {ν : Type v}
    (vlans : σ → ν) {vlan : Nat} {ports : List SwitchPort}
    (herr : (setVlanPorts dev s vlan ports).2 = .error .einval)
    (hreject : vlan ≥ dev.vlans ∨ ports.length > dev.ports ∨ ∃ p ∈ ports, p.id ≥ dev.ports) :
    (pvid (setVlanPorts dev s vlan ports).1 = pvid s ∧
        vlans (setVlanPorts dev s vlan ports).1 = vlans s) ↔
      vlan ≥ dev.vlans ∨ ports.length > dev.ports ∨ ∀ set, dev.setPortPvid = some set →
        ∀ p ∈ validPrefix dev ports, ¬Moves set pvid vlan s p := by
  rw [setVlanPorts] at herr ⊢
  by_cases hvlan : vlan ≥ dev.vlans
  · rw [if_pos hvlan]
    exact iff_of_true ⟨rfl, rfl⟩ (.inl hvlan)
  rw [if_neg hvlan] at herr ⊢
  by_cases hlen : ports.length > dev.ports
  · rw [if_pos hlen]
    exact iff_of_true ⟨rfl, rfl⟩ (.inr (.inl hlen))
  rw [if_neg hlen] at herr ⊢
  cases hops : dev.setVlanPorts with
  | none =>
    rw [hops] at herr
    cases herr
  | some setVlanPorts =>
    obtain ⟨p, hp, hid⟩ := (hreject.resolve_left hvlan).resolve_left hlen
    -- the port that does not exist stops the check, after those in front of it were set
    have hsnd := checkPorts_snd dev vlan ports s
    rw [if_neg fun h => Nat.not_lt.mpr hid (h p hp)] at hsnd
    have hcheck : checkPorts dev vlan ports s =
        ((checkPorts dev vlan ports s).1, .error .einval) := Prod.ext rfl hsnd
    rw [hcheck]
    simp only [hvlan, hlen, false_or]
    cases hset : dev.setPortPvid with
    | none =>
      rw [checkPorts_fst_none hset]
      exact iff_of_true ⟨rfl, rfl⟩ fun set h => by cases h
    | some set =>
      rw [checkPorts_fst hset]
      -- each PVID that was set before the check stopped stays set
      obtain ⟨hkeep, hmoved⟩ := setPvids_eq_iff (s := s) law hset (Nat.lt_of_not_le hvlan)
        (validPrefix dev ports) fun p hp => mem_validPrefix hp
      simp only [Option.some.injEq, forall_eq']
      constructor
      · exact fun h => hmoved h.1
      · intro h
        rw [hkeep h]
        exact ⟨rfl, rfl⟩

/-! ### The request -/

/-- A list of ports that is accepted has room. -/
private theorem length_parsePorts {max : Nat} {nlas : List PortAttr} {acc ports : List SwitchPort}
    (h : parsePorts max nlas acc = .ok ports) (hacc : acc.length ≤ max) : ports.length ≤ max := by
  induction nlas generalizing acc with
  | nil =>
    rw [parsePorts, Except.ok.injEq] at h
    rw [← h]
    exact hacc
  | cons nla nlas ih =>
    rw [parsePorts] at h
    split at h
    · cases h
    · rename_i hlt
      split at h
      · cases h
      · split at h
        · cases h
        -- the list had room, the port is added
        · refine ih h ?_
          rw [List.length_append, List.length_singleton]
          omega

/-- `swconfig_set_attr` either rejects a request before it asks the driver, or passes on a VLAN that
    exists and a list that is not too long. -/
theorem setAttrPorts_cases (getVlanPorts : Bool) (s : σ) (req : PortsRequest) :
    (∃ e, setAttrPorts dev getVlanPorts s req = (s, .error e)) ∨
      ∃ vlan ports, vlan < dev.vlans ∧ ports.length ≤ dev.ports ∧
        setAttrPorts dev getVlanPorts s req = setVlanPorts dev s vlan ports := by
  rw [setAttrPorts]
  cases hlookup : lookupVlanPorts dev getVlanPorts req with
  | none => exact .inl ⟨_, rfl⟩
  | some vlan =>
    -- the lookup refuses a VLAN that the switch does not have
    have hvlan : vlan < dev.vlans := by
      rw [lookupVlanPorts] at hlookup
      split at hlookup
      · cases hlookup
      · split at hlookup
        · cases hlookup
        · rename_i hlt
          split at hlookup
          · cases hlookup
            exact Nat.lt_of_not_le hlt
          · cases hlookup
    simp only
    cases hparse : parsePorts dev.ports (req.ports.getD []) [] with
    | error e => exact .inl ⟨e, rfl⟩
    | ok ports => exact .inr ⟨vlan, ports, hvlan, length_parsePorts hparse (Nat.zero_le _), rfl⟩

/-! ### AR8216 -/

/-- The operation of the AR8216 family, for at most the VLANs that a `u16` holds -/
theorem ar8216_setsPvid (dev : Ar8216.Dev) (hvlans : dev.vlans ≤ 2 ^ 16) :
    SetsPvid (Ar8216.switchDev dev) fun s port => (s.pvid port).toNat := by
  have htoNat {vlan : Nat} (hvlan : vlan < dev.vlans) : (UInt16.ofNat vlan).toNat = vlan := by
    rw [UInt16.toNat_ofNat']
    exact Nat.mod_eq_of_lt (by omega)
  constructor
  -- the three parts of the law: it never fails, an equal value changes nothing, a new one only its
  -- port
  · intro set hset s port vlan hport hvlan hne
    cases Option.some.inj hset
    rw [Ar8216.swSetPvid_eq s hport hvlan] at hne
    exact absurd rfl hne
  · intro set hset s port vlan hport hvlan hpvid
    cases Option.some.inj hset
    rw [Ar8216.swSetPvid_eq s hport hvlan]
    have heq : UInt16.ofNat vlan = s.pvid port := by
      rw [← hpvid, UInt16.ofNat_toNat]
    rw [heq, Function.update_eq_self]
  · intro set hset s port vlan hport hvlan _
    cases Option.some.inj hset
    funext q
    rw [Ar8216.swSetPvid_eq s hport hvlan]
    simp only [Function.update_apply]
    split
    · exact htoNat hvlan
    · rfl

private theorem six_le : 6 ≤ 8 := by decide

/-- A switch of six ports after a reset -/
def resetAr8216 : Ar8216.Dev × Ar8216.Priv :=
  let dev : Ar8216.Dev := { ports := 6, vlans := 16, ports_le := six_le }
  (dev, Ar8216.swResetSwitch dev
    { init := false, vlanId := fun _ => 0, vlanTable := fun _ => 0, vlanTagged := 0
      pvid := fun _ => 0 })

/-- Only a tagged port is in front of the one that is out of range, and nothing is changed. -/
theorem setVlanPorts_rejected_iff_ar8216 :
    let dev := Ar8216.switchDev resetAr8216.1
    let s' := (setVlanPorts dev resetAr8216.2 3 [⟨1, true⟩, ⟨6, false⟩, ⟨2, false⟩]).1
    (fun port => (s'.pvid port).toNat) = (fun port => (resetAr8216.2.pvid port).toNat) ∧
      s'.vlanTable = resetAr8216.2.vlanTable := by
  refine (setVlanPorts_rejected_iff (ar8216_setsPvid _ (by decide)) Ar8216.Priv.vlanTable rfl
    (.inr (.inr ⟨⟨6, false⟩, by decide, by decide⟩))).mpr (.inr (.inr fun set _ p hp hmoves => ?_))
  have hvalid : validPrefix (Ar8216.switchDev resetAr8216.1)
      [⟨1, true⟩, ⟨6, false⟩, ⟨2, false⟩] = [⟨1, true⟩] := by decide
  rw [hvalid, List.mem_singleton] at hp
  have htagged := hmoves.1
  rw [hp] at htagged
  cases htagged

/-- Port 2 gets the VLAN as its PVID although the list is rejected. -/
theorem rejected_list_moves :
    let dev := Ar8216.switchDev resetAr8216.1
    let (s', result) := setVlanPorts dev resetAr8216.2 3 [⟨1, true⟩, ⟨2, false⟩, ⟨6, false⟩]
    result = .error .einval ∧ (resetAr8216.2.pvid 2).toNat = 0 ∧ (s'.pvid 2).toNat = 3 := by
  refine ⟨rfl, rfl, rfl⟩

end HandsomeMod.Native.Swconfig
