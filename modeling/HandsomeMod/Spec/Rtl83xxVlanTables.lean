import HandsomeMod.Native.Rtl83xxVlan
import HandsomeMod.ForStd.Update

/-!
# Effect of a VLAN call on the tables

What one call of `rtl83xx_vlan_add` or `rtl83xx_vlan_del` makes of the entry of a VLAN: the
members, the ports that send untagged, and the profile, hash and FID fields.
-/

namespace HandsomeMod.Native.Rtl83xx.Vlan

open HandsomeMod.ForStd

variable {s : Priv} {info : VlanInfo}

/-- The entries of a VLAN in both tables. -/
abbrev Entry := (U32 × U32) × U32

def Priv.entry (s : Priv) (k : BitVec 12) : Entry := (s.tbl0.entries k, s.tbl1.entries k)

/-! ### Reading and writing an entry -/

def infoOf (e : Entry) : VlanInfo where
  taggedPorts := e.1.1.setWidth 64
  profileId := (e.1.2 &&& 0x7#32).setWidth 8
  hashMcFid := e.1.2 &&& 0x8#32 != 0#32
  hashUcFid := e.1.2 &&& 0x10#32 != 0#32
  fid := ((e.1.2 >>> 5) &&& 0x3f#32).setWidth 8
  untaggedPorts := e.2.setWidth 64

/-- The second word of `rtl838x_vlan_set_tagged`. -/
def wordOf (info : VlanInfo) : U32 :=
  info.profileId.setWidth 32 ||| (if info.hashMcFid then 0x8#32 else 0#32) |||
    (if info.hashUcFid then 0x10#32 else 0#32) ||| (info.fid.setWidth 32 <<< 5)

def encode (info : VlanInfo) : Entry :=
  ((info.taggedPorts.setWidth 32, wordOf info),
    (info.untaggedPorts &&& 0x1fffffff#64).setWidth 32)

/-- A read command takes the entry to the data registers. -/
private theorem exec_read {α : Type} (r : TableReg α) (v : U32) :
    r.exec (bit32 15 ||| bit32 14 ||| (0#32 <<< 12) ||| (v &&& 0xfff#32)) =
      { r with data := r.entries (v.setWidth 12) } := by
  unfold TableReg.exec
  dsimp only
  rw [getLsbD_cmd _ v _ (by decide), getLsbD_cmd _ v _ (by decide),
    setWidth_cmd (k := 12) _ v _ (by decide) (by decide)]
  rfl

/-- A write command takes the data registers to the entry. -/
private theorem exec_write {α : Type} (r : TableReg α) (v : U32) :
    r.exec (bit32 15 ||| (0#32 <<< 14) ||| (0#32 <<< 12) ||| (v &&& 0xfff#32)) =
      { r with entries := Function.update r.entries (v.setWidth 12) r.data } := by
  unfold TableReg.exec
  dsimp only
  rw [getLsbD_cmd _ v _ (by decide), getLsbD_cmd _ v _ (by decide),
    setWidth_cmd (k := 12) _ v _ (by decide) (by decide)]
  rfl

/-- A VLAN is read of its entry. -/
private theorem vlanTablesRead_fst (s : Priv) (v : U32) :
    (vlanTablesRead s v).1 = infoOf (s.entry (v.setWidth 12)) := by
  unfold vlanTablesRead
  simp only [exec_read]
  rfl

/-- Reading keeps the entries. -/
private theorem entry_vlanTablesRead (s : Priv) (v : U32) (k : BitVec 12) :
    (vlanTablesRead s v).2.entry k = s.entry k := by
  unfold vlanTablesRead
  simp only [exec_read]
  rfl

/-- Both writes together. -/
private theorem entry_vlanSet (s : Priv) (v : U32) (info : VlanInfo) (k : BitVec 12) :
    (vlanSetTagged (vlanSetUntagged s v info.untaggedPorts) v info).entry k =
      if k = v.setWidth 12 then encode info else s.entry k := by
  unfold vlanSetTagged vlanSetUntagged
  simp only [exec_write]
  by_cases h : k = v.setWidth 12
  · subst h
    simp [Priv.entry, encode, wordOf]
  · simp [Priv.entry, h]

/-- The entry of a VLAN id. -/
private theorem setWidth_ofNat (v : Nat) : (BitVec.ofNat 32 v).setWidth 12 = BitVec.ofNat 12 v := by
  apply BitVec.eq_of_toNat_eq
  simp only [BitVec.toNat_setWidth, BitVec.toNat_ofNat]
  omega

/-- Adding a VLAN changes its entry. -/
private theorem entry_addVid (port : Nat) (vlan : PortVlan) (s : Priv) {v : Nat} (hv : v ≠ 0)
    (k : BitVec 12) :
    (addVid port vlan s v).entry k = if k = BitVec.ofNat 12 v then
      encode (addInfo port vlan (infoOf (s.entry k))) else s.entry k := by
  unfold addVid
  rw [if_neg hv]
  dsimp only
  rw [entry_vlanSet, entry_vlanTablesRead, vlanTablesRead_fst, setWidth_ofNat]
  by_cases h : k = BitVec.ofNat 12 v
  · rw [h]
  · rw [if_neg h, if_neg h]

/-- Deleting a VLAN changes its entry. -/
private theorem entry_delVid (port : Nat) (pvid : BitVec 16) (s : Priv) (v : Nat) (k : BitVec 12) :
    (delVid port pvid s v).entry k = if k = BitVec.ofNat 12 v then
      encode (delInfo port v (infoOf (s.entry k))) else s.entry k := by
  unfold delVid
  dsimp only
  rw [entry_vlanSet, entry_vlanTablesRead, vlanTablesRead_fst, setWidth_ofNat]
  -- the PVID is no part of the table
  have hpb : ∀ k, (if v = pvid.toNat then
      { s with vlanPortPb := Function.update s.vlanPortPb port 0#32 } else s).entry k =
      s.entry k := by
    intro k
    split <;> rfl
  rw [hpb, hpb]
  by_cases h : k = BitVec.ofNat 12 v
  · rw [h]
  · rw [if_neg h, if_neg h]

/-! ### Ports of an entry -/

/-- `untagged_ports` is a subset of `tagged_ports`. -/
def Entry.Subset (e : Entry) : Prop := ∀ j < 32, e.2.getLsbD j → e.1.1.getLsbD j

/-- The mask of `rtl838x_vlan_set_untagged`. -/
private theorem getLsbD_portMask : ∀ j < 64,
    (0x1fffffff#64).getLsbD j = decide (j < 29) := by decide

/-- The untagged ports of an entry. -/
private theorem getLsbD_encode_untagged (info : VlanInfo) {j : Nat} (hj : j < 32) :
    (encode info).2.getLsbD j = (info.untaggedPorts.getLsbD j && decide (j < 29)) := by
  have hj64 : j < 64 := by omega
  unfold encode
  rw [BitVec.getLsbD_setWidth, BitVec.getLsbD_and, getLsbD_portMask j hj64]
  simp [hj]

/-- The members of an entry. -/
private theorem getLsbD_encode_tagged (info : VlanInfo) {j : Nat} (hj : j < 32) :
    (encode info).1.1.getLsbD j = info.taggedPorts.getLsbD j := by
  unfold encode
  rw [BitVec.getLsbD_setWidth]
  simp [hj]

/-- Nothing is to be sanitised. -/
theorem Entry.Subset.and_not {e : Entry} (h : e.Subset) :
    (infoOf e).untaggedPorts &&& ~~~(infoOf e).taggedPorts = 0#64 := by
  apply BitVec.eq_of_getLsbD_eq
  intro j hj
  unfold infoOf
  rw [BitVec.getLsbD_and, BitVec.getLsbD_not, BitVec.getLsbD_setWidth, BitVec.getLsbD_setWidth,
    BitVec.getLsbD_zero]
  by_cases hj32 : j < 32
  -- an untagged port is a member
  · have hsub := h j hj32
    cases hu : e.2.getLsbD j with
    | false => simp
    | true => simp [hsub hu, hj]
  · rw [BitVec.getLsbD_of_ge e.2 j (by omega)]
    simp

/-- The port is added to the members. -/
private theorem taggedPorts_addInfo (port : Nat) (vlan : PortVlan) (info : VlanInfo) :
    (addInfo port vlan info).taggedPorts = info.taggedPorts ||| bitUll port := by
  unfold addInfo
  dsimp only
  split <;> split <;> split <;> rfl

/-- The port is added to the untagged ones if it is. -/
private theorem untaggedPorts_addInfo (port : Nat) (vlan : PortVlan) {info : VlanInfo}
    (h : info.untaggedPorts &&& ~~~info.taggedPorts = 0#64) :
    (addInfo port vlan info).untaggedPorts =
      if vlan.untagged then info.untaggedPorts ||| bitUll port else info.untaggedPorts := by
  unfold addInfo
  by_cases hnew : info.taggedPorts = 0#64
  · have hones : ~~~0#64 = BitVec.allOnes 64 := by decide
    have hnone : info.untaggedPorts = 0#64 := by
      rwa [hnew, hones, BitVec.and_allOnes] at h
    cases vlan.untagged <;> simp [hnew, hnone]
  · cases vlan.untagged <;> simp [hnew, h]

/-- The members after an add. -/
theorem tagged_add (port : Nat) (vlan : PortVlan) (e : Entry) (hport : port < 64) {j : Nat}
    (hj : j < 32) : (encode (addInfo port vlan (infoOf e))).1.1.getLsbD j =
      (e.1.1.getLsbD j || decide (j = port)) := by
  have hj64 : j < 64 := by omega
  rw [getLsbD_encode_tagged _ hj, taggedPorts_addInfo, BitVec.getLsbD_or, getLsbD_bitUll hport]
  unfold infoOf
  rw [BitVec.getLsbD_setWidth]
  simp [hj64]

/-- The ports that send untagged after an add: a port stays among them without the flag. -/
theorem untagged_add (port : Nat) (vlan : PortVlan) {e : Entry} (he : e.Subset)
    (hport : port < 64) {j : Nat} (hj : j < 32) :
    (encode (addInfo port vlan (infoOf e))).2.getLsbD j =
      ((e.2.getLsbD j || (vlan.untagged && decide (j = port))) && decide (j < 29)) := by
  have hj64 : j < 64 := by omega
  have hold : (infoOf e).untaggedPorts.getLsbD j = e.2.getLsbD j := by
    unfold infoOf
    rw [BitVec.getLsbD_setWidth]
    simp [hj64]
  rw [getLsbD_encode_untagged _ hj, untaggedPorts_addInfo port vlan he.and_not]
  cases vlan.untagged with
  | false => simp [hold]
  | true =>
    rw [if_pos rfl, BitVec.getLsbD_or, hold, getLsbD_bitUll hport]
    simp

/-- The members after a delete: VLAN 1 keeps them. -/
theorem tagged_del (port v : Nat) (e : Entry) (hport : port < 64) {j : Nat} (hj : j < 32) :
    (encode (delInfo port v (infoOf e))).1.1.getLsbD j =
      (e.1.1.getLsbD j && !decide (v ≠ 1 ∧ j = port)) := by
  have hj64 : j < 64 := by omega
  have hold : (infoOf e).taggedPorts.getLsbD j = e.1.1.getLsbD j := by
    unfold infoOf
    rw [BitVec.getLsbD_setWidth]
    simp [hj64]
  rw [getLsbD_encode_tagged _ hj]
  unfold delInfo
  dsimp only
  -- VLAN 1 keeps its members
  by_cases hv : v = 1
  · simp [hv, hold]
  · rw [if_pos hv]
    dsimp only
    rw [BitVec.getLsbD_and, hold, BitVec.getLsbD_not, getLsbD_bitUll hport]
    simp [hv, hj64]

/-- The port is taken out of the untagged ones. -/
theorem untagged_del (port v : Nat) (e : Entry) (hport : port < 64) {j : Nat} (hj : j < 32) :
    (encode (delInfo port v (infoOf e))).2.getLsbD j =
      (e.2.getLsbD j && !decide (j = port) && decide (j < 29)) := by
  have hj64 : j < 64 := by omega
  have hold : (infoOf e).untaggedPorts.getLsbD j = e.2.getLsbD j := by
    unfold infoOf
    rw [BitVec.getLsbD_setWidth]
    simp [hj64]
  -- VLAN 1 or not, the untagged port is taken out
  have hu : (delInfo port v (infoOf e)).untaggedPorts =
      (infoOf e).untaggedPorts &&& ~~~bitUll port := by
    unfold delInfo
    dsimp only
    split <;> rfl
  rw [getLsbD_encode_untagged _ hj, hu, BitVec.getLsbD_and, hold, BitVec.getLsbD_not,
    getLsbD_bitUll hport]
  simp [hj64]

/-! ### Profile, hash flags and FID -/

/-- The other fields of an entry. -/
def Entry.fields (e : Entry) : BitVec 8 × Bool × Bool × BitVec 8 :=
  ((infoOf e).profileId, (infoOf e).hashMcFid, (infoOf e).hashUcFid, (infoOf e).fid)

/-- The test for a bit. -/
private theorem and_one_bit (w : U32) {k : Nat} (hk : k < 32) :
    (w &&& bit32 k != 0#32) = w.getLsbD k := by
  rw [Bool.eq_iff_iff, bne_iff_ne]
  constructor
  -- if the bit were clear, no bit of the conjunction would be set
  · intro hne
    by_contra hbit
    apply hne
    apply BitVec.eq_of_getLsbD_eq
    intro j _
    rw [BitVec.getLsbD_and, getLsbD_bit32 hk, BitVec.getLsbD_zero]
    by_cases hj : j = k
    · subst hj
      simp [hbit]
    · simp [hj]
  · intro hbit hzero
    have hand : (w &&& bit32 k).getLsbD k = true := by
      rw [BitVec.getLsbD_and, getLsbD_bit32 hk, hbit]
      simp
    rw [hzero, BitVec.getLsbD_zero] at hand
    cases hand

/-- A bit that is set or not. -/
private theorem getLsbD_ite_bit (b : Bool) {k : Nat} (hk : k < 32) (j : Nat) :
    (if b then bit32 k else 0#32).getLsbD j = (b && decide (j = k)) := by
  cases b with
  | false => simp
  | true =>
    rw [if_pos rfl, getLsbD_bit32 hk]
    rfl

/-- Writing back the fields that were read leaves the low eleven bits of the word as they were. -/
private theorem getLsbD_wordOf {e : Entry} {info : VlanInfo}
    (h : (info.profileId, info.hashMcFid, info.hashUcFid, info.fid) = e.fields) {j : Nat}
    (hj : j < 11) : (wordOf info).getLsbD j = e.1.2.getLsbD j := by
  obtain ⟨hprofile, hrest⟩ := Prod.mk.inj h
  obtain ⟨hmc, hrest⟩ := Prod.mk.inj hrest
  obtain ⟨huc, hfid⟩ := Prod.mk.inj hrest
  have h8 : (8#32) = bit32 3 := by decide
  have h16 : (16#32) = bit32 4 := by decide
  unfold wordOf
  rw [hprofile, hmc, huc, hfid]
  unfold infoOf
  dsimp only
  rw [h8, h16, and_one_bit _ (by decide), and_one_bit _ (by decide), BitVec.getLsbD_or,
    BitVec.getLsbD_or, BitVec.getLsbD_or, getLsbD_ite_bit _ (by decide),
    getLsbD_ite_bit _ (by decide)]
  simp only [BitVec.getLsbD_shiftLeft, BitVec.getLsbD_setWidth, BitVec.getLsbD_and,
    BitVec.getLsbD_ushiftRight]
  interval_cases j <;> simp

/-- The fields are in the low eleven bits. -/
private theorem fields_congr {e e' : Entry} (h : ∀ j < 11, e'.1.2.getLsbD j = e.1.2.getLsbD j) :
    e'.fields = e.fields := by
  have h8 : (8#32) = bit32 3 := by decide
  have h16 : (16#32) = bit32 4 := by decide
  have hprofile : (infoOf e').profileId = (infoOf e).profileId := by
    apply BitVec.eq_of_getLsbD_eq
    intro j hj
    have hj11 := h j (by omega)
    unfold infoOf
    simp only [BitVec.getLsbD_setWidth, BitVec.getLsbD_and, hj11]
  have hmc : (infoOf e').hashMcFid = (infoOf e).hashMcFid := by
    unfold infoOf
    dsimp only
    rw [h8, and_one_bit _ (by decide), and_one_bit _ (by decide), h 3 (by decide)]
  have huc : (infoOf e').hashUcFid = (infoOf e).hashUcFid := by
    unfold infoOf
    dsimp only
    rw [h16, and_one_bit _ (by decide), and_one_bit _ (by decide), h 4 (by decide)]
  -- the mask of six bits cuts the shifted word off before it reaches the ports
  have hfid : (infoOf e').fid = (infoOf e).fid := by
    apply BitVec.eq_of_getLsbD_eq
    intro j hj
    unfold infoOf
    simp only [BitVec.getLsbD_setWidth, BitVec.getLsbD_and, BitVec.getLsbD_ushiftRight]
    by_cases hj6 : j < 6
    · rw [h (5 + j) (by omega)]
    · have hmask : (63#32).getLsbD j = false := by
        have hlt : j < 8 := hj
        interval_cases j <;> first | omega | decide
      simp only [hmask, Bool.and_false]
  unfold Entry.fields
  rw [hprofile, hmc, huc, hfid]

/-- An add keeps the fields of a VLAN that has members. -/
theorem fields_add (port : Nat) (vlan : PortVlan) {e : Entry} (he : e.1.1 ≠ 0#32) :
    Entry.fields (encode (addInfo port vlan (infoOf e))) = e.fields := by
  refine fields_congr fun j hj => getLsbD_wordOf ?_ hj
  -- a table entry with members is not new, so its fields are kept
  have hne : (infoOf e).taggedPorts ≠ 0#64 := by
    intro hzero
    apply he
    apply BitVec.eq_of_getLsbD_eq
    intro j hj
    have hbit := congrArg (fun x => BitVec.getLsbD x j) hzero
    have hj64 : j < 64 := by omega
    unfold infoOf at hbit
    simp only [BitVec.getLsbD_setWidth, hj64, decide_true, Bool.true_and, BitVec.getLsbD_zero]
      at hbit
    rw [hbit, BitVec.getLsbD_zero]
  unfold addInfo Entry.fields
  dsimp only
  rw [if_neg hne]
  split <;> split <;> rfl

/-- A delete keeps the fields. -/
theorem fields_del (port v : Nat) (e : Entry) :
    Entry.fields (encode (delInfo port v (infoOf e))) = e.fields := by
  refine fields_congr fun j hj => getLsbD_wordOf ?_ hj
  unfold delInfo Entry.fields
  dsimp only
  split <;> rfl

/-! ### Whole calls -/

/-- The entry of VLAN `v`. -/
def Priv.vlan (s : Priv) (v : Nat) : Entry := s.entry (BitVec.ofNat 12 v)

/-- The VLANs of a range. -/
theorem mem_vids {vlan : PortVlan} {v : Nat} :
    v ∈ vlan.vids ↔ vlan.vidBegin.toNat ≤ v ∧ v ≤ vlan.vidEnd.toNat := by
  unfold PortVlan.vids
  rw [List.mem_range'_1]
  omega

/-- Both ends of the range are VLAN identifiers, of 12 bits, and it does not begin with VLAN 0. -/
structure PortVlan.Proper (vlan : PortVlan) : Prop where
  one_le : 1 ≤ vlan.vidBegin.toNat
  begin_le : vlan.vidBegin.toNat ≤ 4095
  end_le : vlan.vidEnd.toNat ≤ 4095

/-- Different VLANs have different entries. -/
private theorem ofNat_inj_of_le {v w : Nat} (hv : v ≤ 4095) (hw : w ≤ 4095)
    (h : BitVec.ofNat 12 v = BitVec.ofNat 12 w) : v = w := by
  have hnat := congrArg BitVec.toNat h
  simp only [BitVec.toNat_ofNat] at hnat
  omega

/-- The VLANs of a range have different entries. -/
theorem PortVlan.Proper.nodup {vlan : PortVlan} (h : vlan.Proper) :
    (vlan.vids.map (BitVec.ofNat 12)).Nodup := by
  refine List.Nodup.map_on (fun v hv w hw heq => ?_) List.nodup_range'
  have hend := h.end_le
  have hv' := mem_vids.mp hv
  have hw' := mem_vids.mp hw
  exact ofNat_inj_of_le (by omega) (by omega) heq

/-- A loop over the VLANs of a call. -/
private theorem vlan_foldl {vlan : PortVlan} (h : vlan.Proper) {f : Nat → Entry → Entry}
    {g : Priv → Nat → Priv}
    (hg : ∀ v, v ≠ 0 → ∀ s k, (g s v).entry k =
      if k = BitVec.ofNat 12 v then f v (s.entry k) else s.entry k) (s : Priv) {w : Nat}
    (hw : w ≤ 4095) :
    (vlan.vids.foldl g s).vlan w = if w ∈ vlan.vids then f w (s.vlan w) else s.vlan w := by
  have hone := h.one_le
  have hend := h.end_le
  have hvids : ∀ v ∈ vlan.vids, ∀ s k, (g s v).entry k =
      if k = BitVec.ofNat 12 v then f v (s.entry k) else s.entry k := by
    intro v hv
    have hv' := mem_vids.mp hv
    exact hg v (by omega)
  -- each VLAN of the range writes its own table index, and the indices differ
  obtain ⟨hin, hout⟩ := foldl_update Priv.entry (BitVec.ofNat 12) f g h.nodup hvids s
  unfold Priv.vlan
  split
  · next hmem => exact hin w hmem
  · next hmem =>
    apply hout
    intro hidx
    obtain ⟨v, hv, heq⟩ := List.mem_map.mp hidx
    have hv' := mem_vids.mp hv
    have hvw : v = w := ofNat_inj_of_le (by omega) hw heq
    exact hmem (hvw ▸ hv)

/-- Setting PVIDs keeps the entries. -/
private theorem entry_foldl_setPvid (port : Nat) (vlan : PortVlan) (l : List Nat) (s : Priv) :
    (l.foldl (setPvid port vlan) s).entry = s.entry := by
  induction l generalizing s with
  | nil => rfl
  | cons v l ih =>
    rw [List.foldl_cons, ih]
    unfold setPvid
    split <;> rfl

/-- Adding a range of VLANs changes their entries. -/
theorem vlan_vlanAdd (port : Nat) {vlan : PortVlan} (h : vlan.Proper) (s : Priv) {w : Nat}
    (hw : w ≤ 4095) : (vlanAdd s port vlan).vlan w =
      if w ∈ vlan.vids then encode (addInfo port vlan (infoOf (s.vlan w))) else s.vlan w := by
  have hin : ¬(4095 < vlan.vidBegin.toNat ∨ 4095 < vlan.vidEnd.toNat) := by
    have hbegin := h.begin_le
    have hend := h.end_le
    omega
  unfold vlanAdd
  rw [if_neg hin]
  dsimp only
  rw [vlan_foldl h (f := fun _ e => encode (addInfo port vlan (infoOf e)))
    (fun v hv s k => entry_addVid port vlan s hv k) _ hw]
  -- the PVID loop does not touch the table
  have hsame : (if vlan.pvid then vlan.vids.foldl (setPvid port vlan) s else s).vlan w =
      s.vlan w := by
    unfold Priv.vlan
    split
    · rw [entry_foldl_setPvid]
    · rfl
  rw [hsame]

/-- Deleting a range of VLANs changes their entries. -/
theorem vlan_vlanDel (port : Nat) {vlan : PortVlan} (h : vlan.Proper) (s : Priv) {w : Nat}
    (hw : w ≤ 4095) : (vlanDel s port vlan).vlan w =
      if w ∈ vlan.vids then encode (delInfo port w (infoOf (s.vlan w))) else s.vlan w := by
  have hin : ¬(4095 < vlan.vidBegin.toNat ∨ 4095 < vlan.vidEnd.toNat) := by
    have hbegin := h.begin_le
    have hend := h.end_le
    omega
  unfold vlanDel
  rw [if_neg hin, vlan_foldl h (f := fun v e => encode (delInfo port v (infoOf e)))
    (fun v _ r k => entry_delVid port (s.pvid port) r v k) s hw]

end HandsomeMod.Native.Rtl83xx.Vlan
