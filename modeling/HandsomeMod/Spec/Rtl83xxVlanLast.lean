import HandsomeMod.ForStd.Run
import HandsomeMod.Spec.Rtl83xxVlanTables

/-!
# VLAN membership and the last call

A port is a member of a VLAN, and sends untagged in it, as the last call says that covered it.
The driver keeps to this except for an add without the untagged flag: a port that sends
untagged already goes on doing so.
-/

namespace HandsomeMod.Native.Rtl83xx.Vlan

open HandsomeMod.ForStd

variable {d : Dsa} {s0 s : Priv} {hist : List Call} {q : Call}

/-- Port `p` is a member of VLAN `v`: bit `p` of `tagged_ports`. -/
def Priv.Member (s : Priv) (v p : Nat) : Bool := (s.vlan v).1.1.getLsbD p

/-- Port `p` sends untagged in VLAN `v`: bit `p` of `untagged_ports`. -/
def Priv.Untagged (s : Priv) (v p : Nat) : Bool := (s.vlan v).2.getLsbD p

def Call.port : Call → Nat
  | .add port _ => port
  | .del port _ => port

def Call.vlan : Call → PortVlan
  | .add _ vlan => vlan
  | .del _ vlan => vlan

def Call.isAdd : Call → Bool
  | .add _ _ => true
  | .del _ _ => false

/-- An add with `BRIDGE_VLAN_INFO_UNTAGGED`. -/
def Call.isUntaggedAdd : Call → Bool
  | .add _ vlan => vlan.untagged
  | .del _ _ => false

def Call.covers (v p : Nat) (q : Call) : Bool := decide (q.port = p ∧ v ∈ q.vlan.vids)

/-- Calls for a user port and VLANs from 1 to 4095. -/
def Call.Allowed (d : Dsa) (q : Call) : Prop := d.isUserPort q.port ∧ q.vlan.Proper

/-! ### What the last call says -/

/-- What the calls `h`, the latest first, say about the members of a VLAN: VLAN 1 keeps them. -/
def expectedMember (s0 : Priv) (h : List Call) (v p : Nat) : Bool :=
  if v = 1 then s0.Member 1 p || h.any fun q => q.covers 1 p && q.isAdd
  else
    match h.find? (Call.covers v p) with
    | some q => q.isAdd
    | none => s0.Member v p

def expectedUntagged (s0 : Priv) (h : List Call) (v p : Nat) : Bool :=
  match h.find? (Call.covers v p) with
  | some q => q.isUntaggedAdd
  | none => s0.Untagged v p

/-- The tables say what the calls `h` say that were made since `s0`. -/
structure FollowsLast (s0 s : Priv) (h : List Call) : Prop where
  member : ∀ v ≤ 4095, ∀ p < 29, s.Member v p = expectedMember s0 h v p
  untagged : ∀ v ≤ 4095, ∀ p < 29, s.Untagged v p = expectedUntagged s0 h v p
  subset : ∀ v ≤ 4095, (s.vlan v).Subset

/-- What a call leaves alone: the other ports, the other VLANs, the other fields of a VLAN that has
    members. -/
structure Framed (s : Priv) (q : Call) (s' : Priv) : Prop where
  ports : ∀ v ≤ 4095, ∀ p < 29, q.covers v p = false →
    s'.Member v p = s.Member v p ∧ s'.Untagged v p = s.Untagged v p
  fields : ∀ v ≤ 4095, (s.vlan v).1.1 ≠ 0#32 → (s'.vlan v).fields = (s.vlan v).fields

/-- An add without the untagged flag is harmless if the port does not send untagged yet. -/
def Call.Harmless (s : Priv) : Call → Prop
  | .add port vlan => vlan.untagged = false → ∀ v ∈ vlan.vids, s.Untagged v port = false
  | .del _ _ => True

/-! ### One call -/

/-- The last call that covers a VLAN says who is a member. -/
private theorem expectedMember_cons (s0 : Priv) (h : List Call) (q : Call) (v p : Nat) :
    expectedMember s0 (q :: h) v p =
      if q.covers v p then
        q.isAdd || decide (v = 1) && expectedMember s0 h v p
      else expectedMember s0 h v p := by
  unfold expectedMember
  by_cases hv : v = 1
  · subst hv
    simp only [if_true, List.any_cons, decide_true, Bool.true_and]
    cases q.covers 1 p <;> cases q.isAdd <;> simp
  · simp only [if_neg hv, List.find?_cons]
    cases hc : q.covers v p <;> simp [hv]

/-- It says who is untagged, too. -/
private theorem expectedUntagged_cons (s0 : Priv) (h : List Call) (q : Call) (v p : Nat) :
    expectedUntagged s0 (q :: h) v p =
      if q.covers v p then q.isUntaggedAdd else expectedUntagged s0 h v p := by
  unfold expectedUntagged
  rw [List.find?_cons]
  cases hc : q.covers v p <;> simp

/-- What a call does to the members and the ports that send untagged. -/
structure Changes (s : Priv) (q : Call) (s' : Priv) : Prop where
  member : ∀ v ≤ 4095, ∀ p < 32, s'.Member v p =
    if q.covers v p then q.isAdd || decide (v = 1) && s.Member v p else s.Member v p
  untagged : ∀ v ≤ 4095, ∀ p < 32, s'.Untagged v p =
    if v ∈ q.vlan.vids then
      (if q.port = p then q.isUntaggedAdd || q.isAdd && s.Untagged v p else s.Untagged v p) &&
        decide (p < 29)
    else s.Untagged v p
  fields : ∀ v ≤ 4095, (s.vlan v).1.1 ≠ 0#32 → (s'.vlan v).fields = (s.vlan v).fields

/-- Adding VLANs to a port changes what it should. -/
private theorem vlanAdd_changes {port : Nat} {vlan : PortVlan} (hport : port < 28)
    (hvlan : vlan.Proper)
    (hsub : ∀ v ≤ 4095, (s.vlan v).Subset) :
    Changes s (.add port vlan) (vlanAdd s port vlan) := by
  have hport64 : port < 64 := by omega
  -- members, untagged ports and the other fields of each VLAN table
  constructor
  · intro v hv p hp
    unfold Priv.Member Call.covers
    rw [vlan_vlanAdd port hvlan s hv]
    simp only [Call.port, Call.vlan, Call.isAdd]
    by_cases hmem : v ∈ vlan.vids
    · rw [if_pos hmem, tagged_add port vlan _ hport64 hp]
      by_cases hpp : p = port
      · simp [hpp, hmem]
      · simp [hpp, Ne.symm hpp]
    · simp [hmem]
  -- an untagged call sets the port's bit, a tagged one clears it
  · intro v hv p hp
    unfold Priv.Untagged
    rw [vlan_vlanAdd port hvlan s hv]
    by_cases hmem : v ∈ vlan.vids
    · have hcall : v ∈ (Call.add port vlan).vlan.vids := hmem
      rw [if_pos hmem, if_pos hcall, untagged_add port vlan (hsub v hv) hport64 hp]
      simp only [Call.port, Call.isAdd, Call.isUntaggedAdd]
      by_cases hpp : p = port
      · subst hpp
        cases vlan.untagged <;> simp
      · simp [hpp, Ne.symm hpp]
    · have hcall : v ∉ (Call.add port vlan).vlan.vids := hmem
      rw [if_neg hmem, if_neg hcall]
  · intro v hv hne
    rw [vlan_vlanAdd port hvlan s hv]
    split
    · exact fields_add port vlan hne
    · rfl

/-- Deleting VLANs from a port changes what it should. -/
private theorem vlanDel_changes {port : Nat} {vlan : PortVlan} (hport : port < 28)
    (hvlan : vlan.Proper) : Changes s (.del port vlan) (vlanDel s port vlan) := by
  have hport64 : port < 64 := by omega
  -- members, untagged ports and the other fields, as for an addition
  constructor
  · intro v hv p hp
    unfold Priv.Member Call.covers
    rw [vlan_vlanDel port hvlan s hv]
    simp only [Call.port, Call.vlan, Call.isAdd]
    by_cases hmem : v ∈ vlan.vids
    · rw [if_pos hmem, tagged_del port v _ hport64 hp]
      by_cases hpp : p = port
      · subst hpp
        -- VLAN 1 keeps its members
        by_cases hv1 : v = 1
        · subst hv1
          simp [hmem]
        · simp [hmem, hv1]
      · simp [hpp, Ne.symm hpp]
    · simp [hmem]
  · intro v hv p hp
    unfold Priv.Untagged
    rw [vlan_vlanDel port hvlan s hv]
    by_cases hmem : v ∈ vlan.vids
    · have hcall : v ∈ (Call.del port vlan).vlan.vids := hmem
      rw [if_pos hmem, if_pos hcall, untagged_del port v _ hport64 hp]
      simp only [Call.port, Call.isAdd, Call.isUntaggedAdd]
      by_cases hpp : p = port
      · simp [hpp]
      · simp [hpp, Ne.symm hpp]
    · have hcall : v ∉ (Call.del port vlan).vlan.vids := hmem
      rw [if_neg hmem, if_neg hcall]
  · intro v hv _
    rw [vlan_vlanDel port hvlan s hv]
    split
    · exact fields_del port v _
    · rfl

/-- Every call changes what it should. -/
theorem call_changes (hq : q.Allowed d) (hsub : ∀ v ≤ 4095, (s.vlan v).Subset) :
    Changes s q (call s q) := by
  cases q with
  | add port vlan => exact vlanAdd_changes (d.lt_cpuPort port hq.1) hq.2 hsub
  | del port vlan => exact vlanDel_changes (d.lt_cpuPort port hq.1) hq.2

/-- It changes nothing else. -/
theorem Changes.framed {s' : Priv} (h : Changes s q s') : Framed s q s' where
  ports v hv p hp hc := by
    have hp32 : p < 32 := by omega
    rw [h.member v hv p hp32, h.untagged v hv p hp32, hc]
    refine ⟨rfl, ?_⟩
    split
    · next hmem =>
      have hne : q.port ≠ p := fun heq => by simp [Call.covers, heq, hmem] at hc
      simp [hne, hp]
    · rfl
  fields := h.fields

/-- Untagged ports stay members. -/
theorem Changes.subset {s' : Priv} (h : Changes s q s')
    (hsub : ∀ v ≤ 4095, (s.vlan v).Subset) : ∀ v ≤ 4095, (s'.vlan v).Subset := by
  intro v hv j hj hu
  have hold : s.Untagged v j → s.Member v j := hsub v hv j hj
  have hm := h.member v hv j hj
  have hu' := h.untagged v hv j hj
  change s'.Untagged v j = true at hu
  change s'.Member v j = true
  rw [hu] at hu'
  rw [hm]
  have hcov : q.covers v j = decide (q.port = j ∧ v ∈ q.vlan.vids) := rfl
  -- a VLAN of the call: its own port is a member when it is untagged, any other port is as before
  by_cases hmem : v ∈ q.vlan.vids
  · rw [if_pos hmem] at hu'
    by_cases hpj : q.port = j
    · rw [if_pos hpj] at hu'
      cases q with
      | add port vlan => simp [hcov, hmem, hpj, Call.isAdd]
      | del port vlan => simp [Call.isAdd, Call.isUntaggedAdd] at hu'
    · rw [if_neg hpj] at hu'
      have hcov' : q.covers v j = false := by rw [hcov]; simp [hpj]
      rw [hcov', if_neg Bool.false_ne_true]
      apply hold
      have := hu'.symm
      simp only [Bool.and_eq_true] at this
      exact this.1
  · rw [if_neg hmem] at hu'
    have hcov' : q.covers v j = false := by rw [hcov]; simp [hmem]
    rw [hcov', if_neg Bool.false_ne_true]
    exact hold hu'.symm

/-- The members always follow the calls. -/
theorem Changes.expectedMember {s' : Priv} (h : Changes s q s')
    (hf : ∀ v ≤ 4095, ∀ p < 29, s.Member v p = expectedMember s0 hist v p) :
    ∀ v ≤ 4095, ∀ p < 29, s'.Member v p = Vlan.expectedMember s0 (q :: hist) v p := by
  intro v hv p hp
  rw [h.member v hv p (by omega), expectedMember_cons, hf v hv p hp]

/-- A covered port sends untagged after the call if the call says so or it did before an add. -/
theorem Changes.untagged_covered {s' : Priv} (h : Changes s q s') {v p : Nat} (hv : v ≤ 4095)
    (hp : p < 29) (hc : q.covers v p = true) :
    s'.Untagged v p = (q.isUntaggedAdd || q.isAdd && s.Untagged v p) := by
  obtain ⟨hport, hmem⟩ := of_decide_eq_true hc
  rw [h.untagged v hv p (by omega), if_pos hmem, if_pos hport]
  simp [hp]

/-- Exactly the harmless calls leave nothing of the old flag on the ports that they cover. -/
private theorem harmless_iff (hq : q.Allowed d) :
    q.Harmless s ↔ ∀ v ≤ 4095, ∀ p < 29, q.covers v p = true →
      (q.isUntaggedAdd || q.isAdd && s.Untagged v p) = q.isUntaggedAdd := by
  -- only an add without the untagged flag can leave an old untagged bit
  cases q with
  | del port vlan => simp [Call.Harmless, Call.isUntaggedAdd, Call.isAdd]
  | add port vlan =>
    have hport : port < 28 := d.lt_cpuPort port hq.1
    have hend := hq.2.end_le
    simp only [Call.Harmless, Call.isUntaggedAdd, Call.isAdd, Bool.true_and]
    constructor
    · intro h v hv p hp hc
      obtain ⟨rfl, hmem⟩ := of_decide_eq_true hc
      cases hflag : vlan.untagged with
      | true => rfl
      | false => exact h hflag v hmem
    · intro h hflag v hmem
      have hle : v ≤ 4095 := le_trans (mem_vids.mp hmem).2 hend
      have hlt : port < 29 := by omega
      have hc : (Call.add port vlan).covers v port = true := decide_eq_true ⟨rfl, hmem⟩
      have hold := h v hle port hlt hc
      rwa [hflag, Bool.false_or] at hold

/-- The step of the invariant. -/
theorem FollowsLast.call (h : FollowsLast s0 s hist) (hq : q.Allowed d) (hok : q.Harmless s) :
    FollowsLast s0 (Vlan.call s q) (q :: hist) := by
  have hch := call_changes hq h.subset
  refine ⟨hch.expectedMember h.member, fun v hv p hp => ?_, hch.subset h.subset⟩
  rw [expectedUntagged_cons]
  by_cases hc : q.covers v p = true
  · rw [if_pos hc, hch.untagged_covered hv hp hc]
    exact (harmless_iff hq).mp hok v hv p hp hc
  · rw [if_neg hc, ← h.untagged v hv p hp]
    exact (hch.framed.ports v hv p hp (Bool.eq_false_iff.mpr hc)).2

/-- A call that is not harmless leaves a port untagged that it adds tagged. -/
theorem FollowsLast.harmless (h : FollowsLast s0 s hist) (hq : q.Allowed d)
    (h' : FollowsLast s0 (Vlan.call s q) (q :: hist)) : q.Harmless s := by
  have hch := call_changes hq h.subset
  refine (harmless_iff hq).mpr fun v hv p hp hc => ?_
  have hexp := h'.untagged v hv p hp
  rwa [expectedUntagged_cons, if_pos hc, hch.untagged_covered hv hp hc] at hexp

/-! ### Runs -/

/-- A call, with the calls that were made before it. -/
def record (r : Priv × List Call) (q : Call) : Priv × List Call := (call r.1 q, q :: r.2)

/-- Without a call there is nothing to follow. -/
theorem followsLast_nil (hsub : ∀ v ≤ 4095, (s.vlan v).Subset) : FollowsLast s s [] where
  member v hv p hp := by
    unfold expectedMember
    by_cases h1 : v = 1
    · subst h1
      simp
    · simp [h1]
  untagged v hv p hp := rfl
  subset := hsub

/-- Membership and tagging follow the last call throughout a run exactly if all its calls are
    harmless. -/
theorem run_followsLast_iff (d : Dsa) (s : Priv) (calls : List Call)
    (hsub : ∀ v ≤ 4095, (s.vlan v).Subset) (hallowed : ∀ q ∈ calls, q.Allowed d) :
    Along record (fun r q r' => FollowsLast s r'.1 r'.2 ∧ Framed r.1 q r'.1) (s, []) calls ↔
      Along record (fun r q _ => q.Harmless r.1) (s, []) calls := by
  have hkeep : ∀ (r : Priv × List Call) (q : Call), FollowsLast s r.1 r.2 → q.Allowed d →
      q.Harmless r.1 → FollowsLast s (record r q).1 (record r q).2 ∧
        (FollowsLast s (record r q).1 (record r q).2 ∧ Framed r.1 q (record r q).1) := by
    intro r q hinv hq hok
    have hnext := hinv.call hq hok
    exact ⟨hnext, hnext, (call_changes hq hinv.subset).framed⟩
  have hbreak : ∀ (r : Priv × List Call) (q : Call), FollowsLast s r.1 r.2 → q.Allowed d →
      FollowsLast s (record r q).1 (record r q).2 ∧ Framed r.1 q (record r q).1 →
        q.Harmless r.1 :=
    fun r q hinv hq hgood => hinv.harmless hq hgood.1
  exact Along.iff_of_invariant hkeep hbreak (followsLast_nil hsub) (Along.of_forall hallowed)

/-- Empty tables. -/
def sampleTables : Priv where
  tbl0 := { entries := fun _ => (0#32, 0#32), data := (0#32, 0#32) }
  tbl1 := { entries := fun _ => 0#32, data := 0#32 }
  vlanPortPb _ := 0#32
  pvid _ := 0#16

/-- The user ports of the examples are below the CPU port. -/
private theorem lt_of_sample_user (i : Nat) (h : decide (i < 28) = true) : i < 28 :=
  of_decide_eq_true h

/-- 28 user ports. -/
def sampleDsa : Dsa where
  isUserPort i := decide (i < 28)
  lt_cpuPort := lt_of_sample_user

/-- VLANs 5 and 6, sent untagged or tagged. -/
def sampleVlan (untagged : Bool) : PortVlan where
  vidBegin := 5#16
  vidEnd := 6#16
  pvid := false
  untagged := untagged

/-- The untagged ports of the examples are members. -/
theorem sampleTables_subset (v : Nat) : (sampleTables.vlan v).Subset := by
  intro j _ hu
  unfold sampleTables Priv.vlan Priv.entry at hu
  simp at hu

/-- The VLANs of the examples are in range. -/
theorem sampleVlan_proper (untagged : Bool) : (sampleVlan untagged).Proper := by
  cases untagged <;> exact ⟨by decide, by decide, by decide⟩

/-- A port that joins untagged, leaves and joins tagged. -/
theorem run_followsLast_three :
    Along record (fun r q r' => FollowsLast sampleTables r'.1 r'.2 ∧ Framed r.1 q r'.1)
      (sampleTables, [])
      [.add 0 (sampleVlan true), .del 0 (sampleVlan true), .add 0 (sampleVlan false)] := by
  refine (run_followsLast_iff sampleDsa sampleTables _ (fun v _ => sampleTables_subset v) ?_).mpr ?_
  · intro q hq
    fin_cases hq <;> exact ⟨rfl, sampleVlan_proper _⟩
  · refine ⟨fun hflag => Bool.noConfusion hflag, trivial, fun _ v hv => ?_, trivial⟩
    have hv56 : v = 5 ∨ v = 6 := by
      have hmem := mem_vids.mp hv
      simp [sampleVlan] at hmem
      omega
    obtain rfl | rfl := hv56 <;> decide

/-- A port that is added untagged and then tagged goes on sending untagged. -/
theorem run_retag_not_followsLast :
    (∀ v ≤ 4095, (sampleTables.vlan v).Subset) ∧
    (∀ q ∈ [Call.add 0 (sampleVlan true), Call.add 0 (sampleVlan false)], q.Allowed sampleDsa) ∧
    ¬Along record (fun r q r' => FollowsLast sampleTables r'.1 r'.2 ∧ Framed r.1 q r'.1)
      (sampleTables, []) [.add 0 (sampleVlan true), .add 0 (sampleVlan false)] := by
  refine ⟨fun v _ => sampleTables_subset v, fun q hq => ?_, fun hgood => ?_⟩
  · fin_cases hq <;> exact ⟨rfl, sampleVlan_proper _⟩
  · have hlast := hgood.2.1.1.untagged 5 (by decide) 0 (by decide)
    revert hlast
    decide

end HandsomeMod.Native.Rtl83xx.Vlan
