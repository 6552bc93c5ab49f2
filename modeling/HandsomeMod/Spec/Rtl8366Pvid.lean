import HandsomeMod.ForStd.Run
import HandsomeMod.Spec.Rtl8366Coherent

/-!
# PVIDs of the RTL8366 family

`rtl8366_set_pvid` always finds a member configuration for its VLAN, and the one that it replaces in
a full table is used by no port. One that it finds empty may be used by other ports, whose PVID then
changes as well: this is the only way in which it affects them.
-/

namespace HandsomeMod.Native.Rtl8366

open ForStd

variable {c : Chip} {s s' : Smi} {port vid : Nat}

/-! ### Member configurations -/

/-- No MC entry has this VID. -/
def NoEntry (c : Chip) (s : Smi) (vid : Nat) : Prop :=
  ∀ i < c.numVlanMc, (s.vlanMc i).vid.toNat ≠ vid

/-- What `rtl8366_set_pvid` takes for an empty entry. -/
def VlanMc.IsEmpty (v : VlanMc) : Prop := v.vid = 0 ∧ v.member = 0

instance (v : VlanMc) : Decidable v.IsEmpty :=
  inferInstanceAs (Decidable (v.vid = 0 ∧ v.member = 0))

/-- The first empty MC entry. -/
structure FirstEmpty (c : Chip) (s : Smi) (i : Nat) : Prop where
  lt : i < c.numVlanMc
  empty : (s.vlanMc i).IsEmpty
  first : ∀ j < i, ¬(s.vlanMc j).IsEmpty

/-- No port refers to an MC entry. -/
def Unused (c : Chip) (s : Smi) (i : Nat) : Prop := ∀ q < c.numPorts, s.mcIndex q ≠ i

/-- There is one first empty entry. -/
theorem FirstEmpty.unique {i j : Nat} (hi : FirstEmpty c s i) (hj : FirstEmpty c s j) : i = j := by
  obtain hlt | heq | hgt := lt_trichotomy i j
  · exact absurd hi.empty (hj.first i hlt)
  · exact heq
  · exact absurd hj.empty (hi.first j hgt)

/-! ### The searches -/

/-- A search from `i` on takes the first entry that fits. -/
private theorem findVlanMc_first {take : VlanMc → Bool} {fuel i j : Nat} {v : VlanMc}
    (h : findVlanMc c s take fuel i = .ok (some (j, v))) :
    ∀ k, i ≤ k → k < j → take (s.vlanMc k) = false := by
  induction fuel generalizing i with
  | zero => cases h
  | succ fuel ih =>
    rw [findVlanMc] at h
    split at h
    · obtain ⟨w, hw, h⟩ := bind_ok h
      obtain ⟨-, rfl⟩ := getVlanMc_ok hw
      split at h
      · cases h
        intro k hik hki
        omega
      · rename_i htake
        intro k hik hkj
        by_cases heq : k = i
        · rw [heq]
          exact Bool.eq_false_iff.mpr htake
        -- entry `i` was not taken, so it is `i` itself or a later one
        · exact ih h k (by omega) hkj
    · cases h

/-- A search does not fail. -/
theorem exists_findVlanMc (c : Chip) (s : Smi) (take : VlanMc → Bool) (fuel i : Nat) :
    ∃ found, findVlanMc c s take fuel i = .ok found := by
  induction fuel generalizing i with
  | zero => exact ⟨none, rfl⟩
  | succ fuel ih =>
    rw [findVlanMc]
    split
    · next hi =>
      rw [getVlanMc, if_neg (by omega)]
      rw [ok_bind]
      split
      · exact ⟨_, rfl⟩
      · exact ih (i + 1)
    · exact ⟨none, rfl⟩

/-- `mc_is_used` looks at all ports. -/
private theorem mcIsUsed_eq (c : Chip) (s : Smi) (m : Nat) {fuel i : Nat}
    (hfuel : c.numPorts ≤ fuel + i) :
    mcIsUsed c s m fuel i = .ok (decide (∃ q < c.numPorts, i ≤ q ∧ s.mcIndex q = m)) := by
  induction fuel generalizing i with
  | zero =>
    rw [mcIsUsed, decide_eq_false]
    rintro ⟨q, hq, hiq, -⟩
    omega
  | succ fuel ih =>
    rw [mcIsUsed]
    by_cases hi : i < c.numPorts
    · rw [if_pos hi, getMcIndex, if_neg (by omega)]
      show (if m = s.mcIndex i then .ok true else mcIsUsed c s m fuel (i + 1)) = _
      by_cases hm : m = s.mcIndex i
      · rw [if_pos hm, decide_eq_true ⟨i, hi, le_refl i, hm.symm⟩]
      · rw [if_neg hm, ih (by omega)]
        congr 2
        apply propext
        constructor
        · rintro ⟨q, hq, hiq, hqm⟩
          exact ⟨q, hq, by omega, hqm⟩
        · rintro ⟨q, hq, hiq, hqm⟩
          refine ⟨q, hq, ?_, hqm⟩
          -- port `i` itself refers to another entry
          have hne : q ≠ i := by
            rintro rfl
            exact hm hqm.symm
          omega
    · rw [if_neg hi, decide_eq_false]
      rintro ⟨q, hq, hiq, -⟩
      omega

/-- The test for an entry that no port uses. -/
private theorem mcIsUsed_ports (c : Chip) (s : Smi) (m : Nat) :
    mcIsUsed c s m c.numPorts 0 = .ok (decide (∃ q < c.numPorts, s.mcIndex q = m)) := by
  rw [mcIsUsed_eq c s m (Nat.le_refl _)]
  simp

/-- The entry that is found is not used. -/
private theorem findUnused_some {fuel i j : Nat} (h : findUnused c s fuel i = .ok (some j)) :
    j < c.numVlanMc ∧ Unused c s j := by
  induction fuel generalizing i with
  | zero => cases h
  | succ fuel ih =>
    rw [findUnused] at h
    split at h
    · next hi =>
      rw [mcIsUsed_ports] at h
      obtain ⟨used, hused, h⟩ := bind_ok h
      obtain rfl := Except.ok.inj hused
      split at h
      · next hnot =>
        cases h
        -- no port has this entry as its index
        refine ⟨hi, fun q hq heq => ?_⟩
        simp only [Bool.not_eq_true', decide_eq_false_iff_not] at hnot
        exact hnot ⟨q, hq, heq⟩
      · exact ih h
    · cases h

/-- The search finds an unused entry, if there is one. -/
theorem exists_findUnused {fuel i j : Nat} (hfuel : c.numVlanMc ≤ fuel + i) (hij : i ≤ j)
    (hj : j < c.numVlanMc) (hunused : Unused c s j) :
    ∃ k, findUnused c s fuel i = .ok (some k) := by
  induction fuel generalizing i with
  | zero => omega
  | succ fuel ih =>
    rw [findUnused, if_pos (by omega), mcIsUsed_ports, ok_bind]
    by_cases hused : ∃ q < c.numPorts, s.mcIndex q = i
    · rw [decide_eq_true hused]
      apply ih (by omega)
      -- the entry is used, so it is not the unused one
      have hne : i ≠ j := by
        rintro rfl
        obtain ⟨q, hq, heq⟩ := hused
        exact hunused q hq heq
      omega
    · rw [decide_eq_false hused]
      exact ⟨i, rfl⟩

/-- With more entries than ports, one entry is unused. -/
theorem exists_unused (c : Chip) (hports : c.numPorts < c.numVlanMc) (s : Smi) :
    ∃ i < c.numVlanMc, Unused c s i := by
  have hcard : ((Finset.range c.numPorts).image s.mcIndex).card <
      (Finset.range c.numVlanMc).card := by
    have hle := Finset.card_image_le (s := Finset.range c.numPorts) (f := s.mcIndex)
    rw [Finset.card_range] at hle ⊢
    omega
  obtain ⟨i, hi, hnot⟩ := Finset.exists_mem_notMem_of_card_lt_card hcard
  refine ⟨i, Finset.mem_range.mp hi, fun q hq heq => hnot ?_⟩
  exact Finset.mem_image.mpr ⟨q, Finset.mem_range.mpr hq, heq⟩

/-! ### What `rtl8366_set_pvid` does -/

/-- Why an entry is the one that a port refers to after `rtl8366_set_pvid`. -/
inductive Chosen (c : Chip) (s s' : Smi) (vid i : Nat) : Prop where
  /-- it has the VID and stays as it is -/
  | entry (hsame : s'.vlanMc i = s.vlanMc i)
  /-- it is empty -/
  | empty (hnone : NoEntry c s vid) (hempty : FirstEmpty c s i)
  /-- the table is full, and no port refers to it -/
  | unused (hnone : NoEntry c s vid) (hfull : ∀ j, ¬FirstEmpty c s j) (hunused : Unused c s i)

/-- The entry that `rtl8366_set_pvid` chooses, and what it leaves alone. -/
structure Sets (c : Chip) (s : Smi) (port vid : Nat) (s' : Smi) (i : Nat) : Prop where
  chosen : Chosen c s s' vid i
  lt : i < c.numVlanMc
  port_lt : port < c.numPorts
  vid_eq : (s'.vlanMc i).vid.toNat = vid
  others : ∀ j ≠ i, s'.vlanMc j = s.vlanMc j
  index : s'.mcIndex = Function.update s.mcIndex port i

/-- Writing the index of a port. -/
private theorem setMcIndex_sets {i : Nat} (h : setMcIndex c s port i = .ok s') :
    port < c.numPorts ∧ i < c.numVlanMc ∧ s'.vlanMc = s.vlanMc ∧
      s'.mcIndex = Function.update s.mcIndex port i := by
  have heq := setMcIndex_ok h
  rw [setMcIndex] at h
  split at h
  · cases h
  · subst heq
    refine ⟨by omega, by omega, rfl, ?_⟩
    funext q
    simp [Function.update_apply]

/-- A filled entry is the one of the port. -/
private theorem fillVlanMc_sets {i : Nat} {v : VlanMc} (h : fillVlanMc c s port vid i v = .ok s')
    (hchosen : Chosen c s s' vid i) : Sets c s port vid s' i := by
  obtain ⟨v4k, h4k, h⟩ := bind_ok h
  obtain ⟨s1, hset, hindex⟩ := bind_ok h
  obtain ⟨hlt, rfl⟩ := getVlan4k_ok h4k
  obtain ⟨hport, hi, hmc, hidx⟩ := setMcIndex_sets hindex
  have hs1 := setVlanMc_ok hset
  subst hs1
  refine ⟨hchosen, hi, hport, ?_, fun j hj => ?_, hidx⟩
  -- the chosen entry has the VID
  · rw [hmc]
    show (if i = i then _ else _ : VlanMc).vid.toNat = vid
    rw [if_pos rfl]
    exact UInt16.toNat_ofNat_of_lt' (Nat.lt_trans hlt (by decide))
  · rw [hmc]
    exact if_neg hj

/-- Where the search for an empty entry ends. -/
private theorem firstEmpty_of_findVlanMc {i : Nat} {v : VlanMc}
    (h : findVlanMc c s (fun vlanmc => vlanmc.vid = 0 ∧ vlanmc.member = 0) c.numVlanMc 0 =
      .ok (some (i, v))) : FirstEmpty c s i := by
  obtain ⟨hi, rfl, htake⟩ := findVlanMc_some h
  refine ⟨hi, of_decide_eq_true htake, fun j hj => ?_⟩
  exact of_decide_eq_false (findVlanMc_first h j (Nat.zero_le j) hj)

/-- A search without result leaves no empty entry. -/
private theorem not_firstEmpty_of_findVlanMc
    (h : findVlanMc c s (fun vlanmc => vlanmc.vid = 0 ∧ vlanmc.member = 0) c.numVlanMc 0 =
      .ok none) (i : Nat) : ¬FirstEmpty c s i := by
  intro hempty
  have hnot := findVlanMc_none (Nat.le_refl _) h i (Nat.zero_le i) hempty.lt
  exact of_decide_eq_false hnot hempty.empty

/-- A PVID that was set uses an entry. -/
theorem setPvid_sets (h : setPvid c s port vid = .ok s') : ∃ i, Sets c s port vid s' i := by
  obtain ⟨found, hfind, h⟩ := bind_ok h
  -- an entry of this VID, else an empty one, else one no port uses
  cases found with
  | some p =>
    obtain ⟨i, v⟩ := p
    obtain ⟨hi, rfl, htake⟩ := findVlanMc_some hfind
    obtain ⟨s1, hset, h⟩ := bind_ok h
    obtain ⟨hport, -, hmc, hidx⟩ := setMcIndex_sets h
    -- the entry is written as it was read
    have hsame : s'.vlanMc = s.vlanMc := by
      rw [hmc, setVlanMc_ok hset]
      funext j
      show (if j = i then s.vlanMc i else s.vlanMc j) = s.vlanMc j
      split
      · next hj => rw [hj]
      · rfl
    rw [setVlanMc_ok hset] at hidx
    refine ⟨i, .entry (by rw [hsame]), hi, hport, ?_, fun j _ => by rw [hsame], hidx⟩
    rw [hsame]
    exact (of_decide_eq_true htake).symm
  | none =>
    have hnone : NoEntry c s vid := vid_ne_of_findVlanMc hfind
    obtain ⟨found, hfindEmpty, h⟩ := bind_ok h
    cases found with
    | some p => exact ⟨p.1, fillVlanMc_sets h (.empty hnone (firstEmpty_of_findVlanMc hfindEmpty))⟩
    | none =>
      obtain ⟨found, hunused, h⟩ := bind_ok h
      cases found with
      | some i =>
        exact ⟨i, fillVlanMc_sets h
          (.unused hnone (not_firstEmpty_of_findVlanMc hfindEmpty) (findUnused_some hunused).2)⟩
      | none => cases h

/-! ### There is always a slot -/

/-- Writing an entry does not fail for want of room. -/
theorem setVlanMc_ne_enospc (c : Chip) (s : Smi) (i : Nat) (v : VlanMc) :
    setVlanMc c s i v ≠ .error .enospc := by
  rw [setVlanMc]
  split <;> simp

/-- Nor does writing an index. -/
theorem setMcIndex_ne_enospc (c : Chip) (s : Smi) (port i : Nat) :
    setMcIndex c s port i ≠ .error .enospc := by
  rw [setMcIndex]
  split <;> simp

/-- Nor does filling an entry. -/
theorem fillVlanMc_ne_enospc (c : Chip) (s : Smi) (port vid i : Nat) (v : VlanMc) :
    fillVlanMc c s port vid i v ≠ .error .enospc := by
  intro h
  obtain h | ⟨v4k, -, h⟩ := bind_error h
  · rw [getVlan4k] at h
    split at h <;> cases h
  obtain h | ⟨s1, -, h⟩ := bind_error h
  · exact setVlanMc_ne_enospc _ _ _ _ h
  · exact setMcIndex_ne_enospc _ _ _ _ h

/-- With more MC entries than ports `rtl8366_set_pvid` never runs out of entries: one of them has
    the VID, is empty or is used by no port, and the one that is replaced in a full table is used by
    no port. -/
theorem setPvid_finds_slot (c : Chip) (hports : c.numPorts < c.numVlanMc) (s : Smi)
    (port vid : Nat) :
    setPvid c s port vid ≠ .error .enospc ∧
    (∃ i < c.numVlanMc,
      (s.vlanMc i).vid.toNat = vid ∨ (s.vlanMc i).IsEmpty ∨ Unused c s i) ∧
    ∀ s', setPvid c s port vid = .ok s' → NoEntry c s vid →
      (∀ i < c.numVlanMc, ¬(s.vlanMc i).IsEmpty) →
        ∃ i < c.numVlanMc, Unused c s i ∧ s'.mcIndex port = i ∧
          ∀ j ≠ i, s'.vlanMc j = s.vlanMc j := by
  obtain ⟨i, hi, hunused⟩ := exists_unused c hports s
  refine ⟨fun h => ?_, ⟨i, hi, Or.inr (Or.inr hunused)⟩, fun s' h hnone hfull => ?_⟩
  -- the searches do not fail, and the last one finds the unused entry
  · obtain ⟨found, hfind⟩ := exists_findVlanMc c s (fun vlanmc => vid = vlanmc.vid.toNat)
      c.numVlanMc 0
    obtain ⟨foundEmpty, hfindEmpty⟩ := exists_findVlanMc c s
      (fun vlanmc => vlanmc.vid = 0 ∧ vlanmc.member = 0) c.numVlanMc 0
    obtain ⟨k, hfindUnused⟩ := exists_findUnused (Nat.le_refl _) (Nat.zero_le i) hi hunused
    rw [setPvid, hfind, ok_bind] at h
    cases found with
    | some p =>
      obtain h | ⟨s1, -, h⟩ := bind_error h
      · exact setVlanMc_ne_enospc _ _ _ _ h
      · exact setMcIndex_ne_enospc _ _ _ _ h
    | none =>
      dsimp only at h
      rw [hfindEmpty, ok_bind] at h
      cases foundEmpty with
      | some p => exact fillVlanMc_ne_enospc _ _ _ _ _ _ h
      | none =>
        dsimp only at h
        rw [hfindUnused, ok_bind] at h
        exact fillVlanMc_ne_enospc _ _ _ _ _ _ h
  -- no entry has the VLAN and none is empty, so it is an unused one that is written
  · obtain ⟨i, hsets⟩ := setPvid_sets h
    have hindex : s'.mcIndex port = i := by rw [hsets.index, Function.update_self]
    refine ⟨i, hsets.lt, ?_, hindex, hsets.others⟩
    cases hsets.chosen with
    | entry hsame =>
      have hvid := hsets.vid_eq
      rw [hsame] at hvid
      exact absurd hvid (hnone i hsets.lt)
    | empty _ hempty => exact absurd hempty.empty (hfull i hsets.lt)
    | unused _ _ hunused => exact hunused

/-- The RTL8366RB has 6 ports and 16 MC entries. -/
theorem setPvid_finds_slot_sample : setPvid sampleChip sampleSmi 0 1 ≠ .error .enospc :=
  (setPvid_finds_slot sampleChip (by decide) sampleSmi 0 1).1

/-! ### One port's PVID -/

/-- Setting a PVID sets that of the port, and leaves those of all other ports alone. -/
def SetsOnly (c : Chip) (s : Smi) (port vid : Nat) (s' : Smi) : Prop :=
  getPvid c s' port = .ok vid ∧ ∀ q ≠ port, getPvid c s' q = getPvid c s q

/-- Setting a PVID is harmless if there is an entry with the VID, or no empty one, or the first empty
    entry is that of no other port. -/
def Harmless (c : Chip) (s : Smi) (port vid : Nat) : Prop :=
  NoEntry c s vid → ∀ i, FirstEmpty c s i → ∀ q < c.numPorts, q ≠ port → s.mcIndex q ≠ i

/-- The PVID of a port is that of its entry. -/
private theorem getPvid_of_lt {q : Nat} (hq : q < c.numPorts) (hi : s.mcIndex q < c.numVlanMc) :
    getPvid c s q = .ok (s.vlanMc (s.mcIndex q)).vid.toNat := by
  rw [getPvid, getMcIndex, if_neg (by omega)]
  show (getVlanMc c s (s.mcIndex q) >>= fun v => pure v.vid.toNat) = _
  rw [getVlanMc, if_neg (by omega)]
  rfl

/-- A PVID depends on the index of the port and the entry behind it only. -/
private theorem getPvid_congr {q : Nat} (hindex : s'.mcIndex q = s.mcIndex q)
    (hentry : s'.vlanMc (s.mcIndex q) = s.vlanMc (s.mcIndex q)) :
    getPvid c s' q = getPvid c s q := by
  simp only [getPvid, getMcIndex, hindex]
  split
  · rfl
  · show (getVlanMc c s' (s.mcIndex q) >>= fun v => pure v.vid.toNat) =
      (getVlanMc c s (s.mcIndex q) >>= fun v => pure v.vid.toNat)
    rw [getVlanMc, getVlanMc, hentry]

/-- The port has the PVID that was set. -/
theorem Sets.own {i : Nat} (h : Sets c s port vid s' i) : getPvid c s' port = .ok vid := by
  have hindex : s'.mcIndex port = i := by rw [h.index, Function.update_self]
  rw [getPvid_of_lt h.port_lt (by rw [hindex]; exact h.lt), hindex, h.vid_eq]

/-- The PVID of a port that refers to another entry stays. -/
theorem Sets.other {i q : Nat} (h : Sets c s port vid s' i) (hq : q ≠ port)
    (hentry : s.mcIndex q = i → s'.vlanMc i = s.vlanMc i) : getPvid c s' q = getPvid c s q := by
  refine getPvid_congr (by rw [h.index, Function.update_of_ne hq]) ?_
  by_cases hi : s.mcIndex q = i
  · rw [hi, hentry hi]
  · exact h.others _ hi

/-- There is no PVID behind the ports. -/
private theorem getPvid_of_le {q : Nat} (hq : c.numPorts ≤ q) : getPvid c s q = .error .einval := by
  rw [getPvid, getMcIndex, if_pos hq]
  rfl

/-- Setting a PVID affects only its port exactly if it is harmless. -/
private theorem setPvid_setsOnly_iff (h : setPvid c s port vid = .ok s') :
    SetsOnly c s port vid s' ↔ Harmless c s port vid := by
  obtain ⟨i, hsets⟩ := setPvid_sets h
  constructor
  · rintro ⟨-, hothers⟩ hnone j hempty q hq hne rfl
    cases hsets.chosen with
    | entry hsame =>
      have hvid := hsets.vid_eq
      rw [hsame] at hvid
      exact hnone i hsets.lt hvid
    | unused _ hfull _ => exact hfull _ hempty
    | empty _ hfirst =>
      -- port `q` refers to the entry that is filled, and gets the VID too
      obtain rfl := hfirst.unique hempty
      have hindex : s'.mcIndex q = s.mcIndex q := by rw [hsets.index, Function.update_of_ne hne]
      have hsame := hothers q hne
      rw [getPvid_of_lt hq (by rw [hindex]; exact hsets.lt), getPvid_of_lt hq hsets.lt, hindex,
        hsets.vid_eq] at hsame
      exact hnone _ hsets.lt (Except.ok.inj hsame).symm
  · intro hok
    refine ⟨hsets.own, fun q hq => ?_⟩
    by_cases hports : q < c.numPorts
    · refine hsets.other hq fun hi => ?_
      cases hsets.chosen with
      | entry hsame => exact hsame
      | empty hnone hfirst => exact absurd hi (hok hnone i hfirst q hports hq)
      | unused _ _ hunused => exact absurd hi (hunused q hports)
    · rw [getPvid_of_le (Nat.le_of_not_lt hports), getPvid_of_le (Nat.le_of_not_lt hports)]

/-! ### Runs -/

/-- A call of one of the three functions. -/
inductive PvidCall where
  | resetVlan
  | setVlan (vid member untag fid : Nat)
  | setPvid (port vid : Nat)

def PvidCall.run (c : Chip) (s : Smi) : PvidCall → Except Errno Smi
  | .resetVlan => Rtl8366.resetVlan c s
  | .setVlan vid member untag fid => Rtl8366.setVlan c s vid member untag fid
  | .setPvid port vid => Rtl8366.setPvid c s port vid

/-- A call and the state after it. What a call leaves that fails is open. -/
structure PvidStep where
  call : PvidCall
  after : Smi

def PvidStep.Follows (c : Chip) (s : Smi) (x : PvidStep) : Prop :=
  ∀ s', x.call.run c s = .ok s' → x.after = s'

/-- If the call is a `rtl8366_set_pvid` that succeeds, it affects the PVID of its port only. -/
def PvidStep.Good (c : Chip) (s : Smi) (x : PvidStep) : Prop :=
  ∀ port vid s', x.call = .setPvid port vid → x.call.run c s = .ok s' →
    SetsOnly c s port vid x.after

/-- If the call is a `rtl8366_set_pvid` that succeeds, it is harmless. -/
def PvidStep.Harmless (c : Chip) (s : Smi) (x : PvidStep) : Prop :=
  ∀ port vid s', x.call = .setPvid port vid → x.call.run c s = .ok s' →
    Rtl8366.Harmless c s port vid

/-- A step is good exactly if it harms no other port. -/
theorem PvidStep.good_iff {x : PvidStep} (h : x.Follows c s) : x.Good c s ↔ x.Harmless c s := by
  have hiff (port vid : Nat) (s' : Smi) (hcall : x.call = .setPvid port vid)
      (hrun : x.call.run c s = .ok s') :
      SetsOnly c s port vid x.after ↔ Rtl8366.Harmless c s port vid := by
    rw [h s' hrun]
    rw [hcall] at hrun
    exact setPvid_setsOnly_iff hrun
  exact ⟨fun hgood port vid s' hcall hrun => (hiff port vid s' hcall hrun).mp
      (hgood port vid s' hcall hrun),
    fun hok port vid s' hcall hrun => (hiff port vid s' hcall hrun).mpr
      (hok port vid s' hcall hrun)⟩

/-- The state after a step. -/
def pvidStep (_ : Smi) (x : PvidStep) : Smi := x.after

/-- In a run from any state, every `rtl8366_set_pvid` that succeeds affects the PVID of its port only
    exactly if all of them are harmless. -/
theorem run_pvid_iff (c : Chip) (s : Smi) (xs : List PvidStep)
    (hrun : Along pvidStep (fun s x _ => x.Follows c s) s xs) :
    Along pvidStep (fun s x _ => x.Good c s) s xs ↔
      Along pvidStep (fun s x _ => x.Harmless c s) s xs := by
  have hkeep : ∀ (s : Smi) (x : PvidStep), True → x.Follows c s → x.Harmless c s →
      True ∧ x.Good c s :=
    fun _ _ _ hfollows hok => ⟨trivial, (PvidStep.good_iff hfollows).mpr hok⟩
  have hbreak : ∀ (s : Smi) (x : PvidStep), True → x.Follows c s → x.Good c s → x.Harmless c s :=
    fun _ _ _ hfollows hgood => (PvidStep.good_iff hfollows).mp hgood
  exact @Along.iff_of_invariant _ _ _ _ _ _ (fun _ => True) _ _ hkeep hbreak trivial hrun

/-- VLAN 2 on a full table: port 0 moves to an entry that no port uses. -/
theorem run_pvid_sample :
    ∃ s' : Smi, setPvid sampleChip sampleSmi 0 2 = .ok s' ∧ s'.mcIndex 0 = 1 ∧
      Along pvidStep (fun s x _ => x.Good sampleChip s) sampleSmi [⟨.setPvid 0 2, s'⟩] := by
  obtain ⟨s', hrun, hindex⟩ :
      ∃ s', setPvid sampleChip sampleSmi 0 2 = .ok s' ∧ s'.mcIndex 0 = 1 := ⟨_, rfl, rfl⟩
  refine ⟨s', hrun, hindex, (run_pvid_iff sampleChip sampleSmi [⟨.setPvid 0 2, s'⟩]
    ⟨fun s'' h => ?_, trivial⟩).mpr ⟨fun port vid s'' _ _ _ i hempty => ?_, trivial⟩⟩
  · exact Except.ok.inj (hrun.symm.trans h)
  · exact absurd hempty.empty.1 (show ¬((9 : UInt16) = 0) by decide)

/-- After a reset all ports refer to entry 0, which is empty: the PVID of port 0 becomes that of
    port 1. -/
theorem run_pvid_shared :
    ∃ s s' : Smi, resetVlan sampleChip sampleSmi = .ok s ∧ setPvid sampleChip s 0 2 = .ok s' ∧
      getPvid sampleChip s 1 = .ok 0 ∧ getPvid sampleChip s' 1 = .ok 2 :=
  ⟨_, _, rfl, rfl, rfl, rfl⟩

end HandsomeMod.Native.Rtl8366
