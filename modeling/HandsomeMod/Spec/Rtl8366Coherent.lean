import HandsomeMod.ForStd.Except
import HandsomeMod.Native.Rtl8366

/-!
# Coherence of the VLAN member configurations

The MC table caches entries of the 4K table. After `rtl8366_reset_vlan` and any successful calls, a
VLAN has at most one MC entry, and that entry agrees with the 4K table.
-/

namespace HandsomeMod.Native.Rtl8366

open ForStd

variable {c : Chip} {s s' : Smi}

/-! ### What the accessors do -/

/-- A VLAN of the 4k table is read by its id. -/
theorem getVlan4k_ok {vid : Nat} {v : Vlan4k} (h : getVlan4k s vid = .ok v) :
    vid < numVids ∧ v = { s.vlan4k vid with vid := UInt16.ofNat vid } := by
  rw [getVlan4k] at h
  split at h
  · cases h
  · cases h
    exact ⟨by omega, rfl⟩

/-- A VLAN of the 4k table is written by its id. -/
private theorem setVlan4k_ok {v : Vlan4k} (h : setVlan4k c s v = .ok s') :
    s' = { s with vlan4k := fun vid => if vid = v.vid.toNat then v else s.vlan4k vid } := by
  rw [setVlan4k] at h
  split at h
  · cases h
  · exact (Except.ok.inj h).symm

/-- An entry of the member configuration is read. -/
theorem getVlanMc_ok {i : Nat} {v : VlanMc} (h : getVlanMc c s i = .ok v) :
    i < c.numVlanMc ∧ v = s.vlanMc i := by
  rw [getVlanMc] at h
  split at h
  · cases h
  · exact ⟨by omega, (Except.ok.inj h).symm⟩

/-- An entry of the member configuration is written. -/
theorem setVlanMc_ok {i : Nat} {v : VlanMc} (h : setVlanMc c s i v = .ok s') :
    s' = { s with vlanMc := fun j => if j = i then v else s.vlanMc j } := by
  rw [setVlanMc] at h
  split at h
  · cases h
  · exact (Except.ok.inj h).symm

/-- The index of a port is written. -/
theorem setMcIndex_ok {port i : Nat} (h : setMcIndex c s port i = .ok s') :
    s' = { s with mcIndex := fun p => if p = port then i else s.mcIndex p } := by
  rw [setMcIndex] at h
  split at h
  · cases h
  · exact (Except.ok.inj h).symm

/-! ### The searches -/

/-- An entry that is found is one that was looked for. -/
theorem findVlanMc_some {take : VlanMc → Bool} {fuel i j : Nat} {v : VlanMc}
    (h : findVlanMc c s take fuel i = .ok (some (j, v))) :
    j < c.numVlanMc ∧ v = s.vlanMc j ∧ take v = true := by
  induction fuel generalizing i with
  | zero => cases h
  | succ fuel ih =>
    rw [findVlanMc] at h
    split at h
    · obtain ⟨w, hw, h⟩ := bind_ok h
      obtain ⟨hi, rfl⟩ := getVlanMc_ok hw
      split at h
      -- the first entry that is taken
      · rename_i htake
        cases h
        exact ⟨hi, rfl, htake⟩
      · exact ih h
    · cases h

/-- Without one no entry is what was looked for. -/
theorem findVlanMc_none {take : VlanMc → Bool} {fuel i : Nat} (hfuel : c.numVlanMc ≤ fuel + i)
    (h : findVlanMc c s take fuel i = .ok none) :
    ∀ j, i ≤ j → j < c.numVlanMc → take (s.vlanMc j) = false := by
  induction fuel generalizing i with
  | zero =>
    intro j hij hj
    omega
  | succ fuel ih =>
    rw [findVlanMc] at h
    split at h
    · obtain ⟨w, hw, h⟩ := bind_ok h
      obtain ⟨-, rfl⟩ := getVlanMc_ok hw
      split at h
      · cases h
      · rename_i htake
        intro j hij hj
        by_cases heq : j = i
        · rw [heq]
          exact Bool.eq_false_iff.mpr htake
        -- the entry was not taken, so the search went on to the next one
        · exact ih (by omega) h j (by omega) hj
    · intro j hij hj
      omega

/-- No MC entry has this VID. -/
theorem vid_ne_of_findVlanMc {vid : Nat}
    (h : findVlanMc c s (fun vlanmc => vid = vlanmc.vid.toNat) c.numVlanMc 0 = .ok none) :
    ∀ j < c.numVlanMc, (s.vlanMc j).vid.toNat ≠ vid := by
  intro j hj heq
  have hfalse := findVlanMc_none (Nat.le_refl _) h j (Nat.zero_le _) hj
  exact absurd heq.symm (of_decide_eq_false hfalse)

/-! ### The invariant -/

/-- A VLAN has at most one MC entry, which agrees with the 4K table. -/
structure Coherent (c : Chip) (s : Smi) : Prop where
  unique : ∀ i < c.numVlanMc, ∀ j < c.numVlanMc, (s.vlanMc i).vid ≠ 0 →
    (s.vlanMc i).vid = (s.vlanMc j).vid → i = j
  agrees : ∀ i < c.numVlanMc, (s.vlanMc i).vid ≠ 0 →
    (s.vlanMc i).member = (s.vlan4k (s.vlanMc i).vid.toNat).member ∧
    (s.vlanMc i).untag = (s.vlan4k (s.vlanMc i).vid.toNat).untag ∧
    (s.vlanMc i).fid = (s.vlan4k (s.vlanMc i).vid.toNat).fid

/-- A VLAN id has 16 bits. -/
private theorem toNat_ofNat_of_lt {vid : Nat} (h : vid < numVids) :
    (UInt16.ofNat vid).toNat = vid :=
  UInt16.toNat_ofNat_of_lt' (Nat.lt_trans h (by decide))

/-- The index of a port does not matter for the tables. -/
theorem Coherent.setMcIndex (hs : Coherent c s) {port i : Nat}
    (h : setMcIndex c s port i = .ok s') : Coherent c s' := by
  rw [setMcIndex_ok h]
  exact ⟨hs.unique, hs.agrees⟩

/-- Writing an entry that agrees with the 4K table, for a VLAN that has no other one. -/
theorem Coherent.write (hs : Coherent c s) (i : Nat) (v : VlanMc)
    (hnew : v.vid ≠ 0 → ∀ j < c.numVlanMc, (s.vlanMc j).vid = v.vid → j = i)
    (hagree : v.vid ≠ 0 → v.member = (s.vlan4k v.vid.toNat).member ∧
      v.untag = (s.vlan4k v.vid.toNat).untag ∧ v.fid = (s.vlan4k v.vid.toNat).fid) :
    Coherent c { s with vlanMc := fun j => if j = i then v else s.vlanMc j } := by
  constructor
  -- two entries of one VLAN: the written one has its VLAN for itself
  · intro j hj k hk
    simp only
    split
    · rename_i hji
      split
      · rename_i hki
        intro _ _
        rw [hji, hki]
      · intro hne heq
        rw [hji, hnew hne k hk heq.symm]
    · split
      · rename_i hki
        intro hne heq
        rw [hki, hnew (heq ▸ hne) j hj heq]
      · exact hs.unique j hj k hk
  · intro j hj
    simp only
    split
    · exact hagree
    · exact hs.agrees j hj

/-- A new entry is filled from the 4k table. -/
theorem Coherent.fillVlanMc (hs : Coherent c s) {port vid i : Nat} {v : VlanMc}
    (hnew : ∀ j < c.numVlanMc, (s.vlanMc j).vid.toNat ≠ vid)
    (h : fillVlanMc c s port vid i v = .ok s') : Coherent c s' := by
  obtain ⟨v4k, h4k, h⟩ := bind_ok h
  obtain ⟨s1, hset, hindex⟩ := bind_ok h
  obtain ⟨hvid, rfl⟩ := getVlan4k_ok h4k
  have htoNat := toNat_ofNat_of_lt hvid
  refine Coherent.setMcIndex ?_ hindex
  rw [setVlanMc_ok hset]
  apply hs.write
  -- no other entry has this VID
  · intro _ j hj heq
    exact absurd (htoNat ▸ congrArg UInt16.toNat heq) (hnew j hj)
  · intro _
    simp only
    rw [htoNat]
    exact ⟨rfl, rfl, rfl⟩

/-- `rtl8366_set_vlan` updates the 4K entry of a VLAN and the one MC entry that it can have. -/
theorem Coherent.setVlan (hs : Coherent c s) {vid member untag fid : Nat} (hvid : vid ≠ 0)
    (h : setVlan c s vid member untag fid = .ok s') : Coherent c s' := by
  obtain ⟨v4k, h4k, h⟩ := bind_ok h
  obtain ⟨s1, hset, h⟩ := bind_ok h
  obtain ⟨found, hfind, h⟩ := bind_ok h
  obtain ⟨hlt, rfl⟩ := getVlan4k_ok h4k
  have htoNat := toNat_ofNat_of_lt hlt
  have hs1 := setVlan4k_ok hset
  simp only at hs1
  rw [htoNat] at hs1
  subst hs1
  cases found with
  | none =>
    -- no entry has this VID, so no entry looks at the changed 4K entry
    obtain rfl := Except.ok.inj h
    have hne := vid_ne_of_findVlanMc hfind
    constructor
    · exact hs.unique
    · intro i hi hvid'
      simp only
      rw [if_neg (hne i hi)]
      exact hs.agrees i hi hvid'
  | some p =>
    obtain ⟨i, v⟩ := p
    obtain ⟨hi, rfl, htake⟩ := findVlanMc_some hfind
    have heq : vid = (s.vlanMc i).vid.toNat := of_decide_eq_true htake
    have hne : (s.vlanMc i).vid ≠ 0 := fun h0 => hvid (by rw [heq, h0]; rfl)
    rw [setVlanMc_ok h]
    constructor
    · -- the VIDs are what they were
      have hsame : ∀ j, (if j = i then { s.vlanMc i with
          member := UInt16.ofNat member, untag := UInt16.ofNat untag, fid := UInt8.ofNat fid }
          else s.vlanMc j).vid = (s.vlanMc j).vid := by
        intro j
        split
        · rename_i hji
          rw [hji]
        · rfl
      intro j hj k hk
      simp only
      rw [hsame, hsame]
      exact hs.unique j hj k hk
    · intro j hj hvid'
      simp only at hvid' ⊢
      by_cases hji : j = i
      · rw [if_pos hji, if_pos heq.symm]
        exact ⟨rfl, rfl, rfl⟩
      · rw [if_neg hji] at hvid' ⊢
        -- the other entries have other VIDs, so they look at other 4K entries
        have hother : (s.vlanMc j).vid.toNat ≠ vid := by
          intro hj'
          rw [heq] at hj'
          exact hji (hs.unique j hj i hi hvid' (UInt16.toNat_inj.mp hj'))
        rw [if_neg hother]
        exact hs.agrees j hj hvid'

/-- Setting a PVID keeps the tables coherent. -/
theorem Coherent.setPvid (hs : Coherent c s) {port vid : Nat}
    (h : setPvid c s port vid = .ok s') : Coherent c s' := by
  obtain ⟨found, hfind, h⟩ := bind_ok h
  cases found with
  | some p =>
    obtain ⟨i, v⟩ := p
    obtain ⟨hi, rfl, -⟩ := findVlanMc_some hfind
    obtain ⟨s1, hset, h⟩ := bind_ok h
    -- the entry is written back as it was read
    refine Coherent.setMcIndex ?_ h
    rw [setVlanMc_ok hset]
    apply hs.write
    · intro hne j hj heq
      exact hs.unique j hj i hi (heq ▸ hne) heq
    · exact hs.agrees i hi
  | none =>
    have hnew := vid_ne_of_findVlanMc hfind
    obtain ⟨found, -, h⟩ := bind_ok h
    cases found with
    | some p => exact hs.fillVlanMc hnew h
    | none =>
      obtain ⟨found, -, h⟩ := bind_ok h
      cases found with
      | some i => exact hs.fillVlanMc hnew h
      | none => cases h

/-- Setting PVIDs for a list of ports keeps the tables coherent. -/
private theorem setVlanPortsLoop_coherent (hs : Coherent c s) {vlan : Nat} {ports : List SwitchPort}
    {member untag : Nat} {r : Smi × Nat × Nat}
    (h : setVlanPortsLoop c vlan ports s member untag = .ok r) : Coherent c r.1 := by
  induction ports generalizing s member untag with
  | nil =>
    obtain rfl := Except.ok.inj h
    exact hs
  | cons port ports ih =>
    obtain ⟨pvid, -, h⟩ := bind_ok h
    obtain ⟨s1, hset, h⟩ := bind_ok h
    apply ih _ h
    -- a port without a PVID gets the VLAN
    split at hset
    · exact hs.setPvid hset
    · obtain rfl := Except.ok.inj hset
      exact hs

/-- VLAN 0 is not valid. -/
private theorem isVlanValid_ne_zero {vlan : Nat} (h : isVlanValid c s vlan = true) : vlan ≠ 0 := by
  intro h0
  rw [isVlanValid, h0] at h
  simp at h

/-- Setting the ports of a VLAN keeps the tables coherent. -/
theorem Coherent.swSetVlanPorts (hs : Coherent c s) {vlan : Nat} {ports : List SwitchPort}
    (h : swSetVlanPorts c s vlan ports = .ok s') : Coherent c s' := by
  rw [Rtl8366.swSetVlanPorts] at h
  split at h
  · cases h
  · rename_i hvalid
    obtain ⟨r, hloop, h⟩ := bind_ok h
    have hne : vlan ≠ 0 := isVlanValid_ne_zero (by simpa using hvalid)
    exact (setVlanPortsLoop_coherent hs hloop).setVlan hne h

/-- Setting the FID of a VLAN keeps the tables coherent. -/
theorem Coherent.swSetVlanFid (hs : Coherent c s) {vlan : Nat} {i max : Int}
    (h : swSetVlanFid c s vlan i max = .ok s') : Coherent c s' := by
  rw [Rtl8366.swSetVlanFid] at h
  split at h
  · cases h
  · rename_i hvalid
    split at h
    · cases h
    · obtain ⟨v4k, -, h⟩ := bind_ok h
      exact hs.setVlan (isVlanValid_ne_zero (by simpa using hvalid)) h

/-- All entries are cleared. -/
private theorem clearVlanMc_vid {fuel i : Nat} (hfuel : c.numVlanMc ≤ fuel + i)
    (hdone : ∀ j < i, (s.vlanMc j).vid = 0) (h : clearVlanMc c s fuel i = .ok s') :
    ∀ j < c.numVlanMc, (s'.vlanMc j).vid = 0 := by
  induction fuel generalizing s i with
  | zero =>
    obtain rfl := Except.ok.inj h
    intro j hj
    exact hdone j (by omega)
  | succ fuel ih =>
    rw [clearVlanMc] at h
    split at h
    · obtain ⟨s1, hset, h⟩ := bind_ok h
      -- entry `i` is cleared now, those before it stay cleared
      apply ih (by omega) _ h
      rw [setVlanMc_ok hset]
      intro j hj
      simp only
      split
      · rfl
      · exact hdone j (by omega)
    · obtain rfl := Except.ok.inj h
      intro j hj
      exact hdone j (by omega)

/-- A reset leaves coherent tables. -/
theorem resetVlan_coherent (h : resetVlan c s = .ok s') : Coherent c s' := by
  have hzero : ∀ j < c.numVlanMc, (s'.vlanMc j).vid = 0 :=
    clearVlanMc_vid (Nat.le_refl _) (fun j hj => absurd hj (Nat.not_lt_zero _)) h
  constructor
  · intro i hi j _ hne
    exact absurd (hzero i hi) hne
  · intro i hi hne
    exact absurd (hzero i hi) hne

/-! ### Runs -/

/-- A call of the driver. -/
inductive Call where
  | resetVlan
  | setVlan (vid member untag fid : Nat) (hvid : vid ≠ 0)
  | setPvid (port vid : Nat)
  | swSetVlanPorts (vlan : Nat) (ports : List SwitchPort)
  | swSetVlanFid (vlan : Nat) (i max : Int)

def Call.run (c : Chip) (s : Smi) : Call → Except Errno Smi
  | .resetVlan => Rtl8366.resetVlan c s
  | .setVlan vid member untag fid _ => Rtl8366.setVlan c s vid member untag fid
  | .setPvid port vid => Rtl8366.setPvid c s port vid
  | .swSetVlanPorts vlan ports => Rtl8366.swSetVlanPorts c s vlan ports
  | .swSetVlanFid vlan i max => Rtl8366.swSetVlanFid c s vlan i max

/-- What holds after every prefix of a run that succeeds holds at its end. -/
theorem Coherent.run (hs : Coherent c s) {calls : List Call}
    (h : calls.foldlM (Call.run c) s = .ok s') : Coherent c s' := by
  induction calls generalizing s with
  | nil =>
    obtain rfl := Except.ok.inj h
    exact hs
  | cons call calls ih =>
    rw [List.foldlM_cons] at h
    obtain ⟨s1, hcall, h⟩ := bind_ok h
    apply ih _ h
    -- each call keeps the tables coherent
    cases call with
    | resetVlan => exact resetVlan_coherent hcall
    | setVlan vid member untag fid hvid => exact hs.setVlan hvid hcall
    | setPvid port vid => exact hs.setPvid hcall
    | swSetVlanPorts vlan ports => exact hs.swSetVlanPorts hcall
    | swSetVlanFid vlan i max => exact hs.swSetVlanFid hcall

/-- After `rtl8366_reset_vlan` and successful calls, no VLAN has two MC entries, and every MC entry
    of a VLAN agrees with the 4K table. -/
theorem run_coherent (c : Chip) (s0 s s' : Smi) (calls : List Call)
    (hreset : resetVlan c s0 = .ok s) (hrun : calls.foldlM (Call.run c) s = .ok s') :
    Coherent c s' :=
  (resetVlan_coherent hreset).run hrun

/-- A chip like the RTL8366RB, with old contents in its tables. -/
def sampleChip : Chip :=
  { numPorts := 6, numVlanMc := 16, memberMask := 0xff, untagMask := 0xff, fidMax := 7
    priorityMax := 7 }

def sampleSmi : Smi :=
  { vlan4k := fun _ => ⟨9, 1, 1, 1⟩, vlanMc := fun _ => ⟨9, 1, 1, 1, 1⟩, mcIndex := fun _ => 0
    vlanEnabled := true, vlan4kEnabled := true }

/-- Two ports share VLAN 2. -/
theorem run_coherent_sample :
    ∃ s s' : Smi, resetVlan sampleChip sampleSmi = .ok s ∧
      Coherent sampleChip s' ∧ (s'.vlanMc 0).vid = 2 ∧ (s'.vlanMc 0).member = 3 :=
  ⟨_, _, rfl, run_coherent sampleChip sampleSmi _ _
    [.swSetVlanPorts 2 [⟨0, false⟩, ⟨1, true⟩], .setPvid 1 2, .swSetVlanFid 2 3 7] rfl rfl,
    by decide, by decide⟩

end HandsomeMod.Native.Rtl8366
