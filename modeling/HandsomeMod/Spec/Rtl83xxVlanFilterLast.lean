import HandsomeMod.ForStd.Run
import HandsomeMod.Native.Rtl83xxVlanFilter
import HandsomeMod.Spec.Rtl83xxLagOps

/-!
# VLAN filters and the last call

The filters of a port are as the last call for it says as long as the calls are for ports below 16.
From port 16 on the driver takes the register of another port on ingress and on egress: the shifts
for the two filters are exchanged.
-/

namespace HandsomeMod.Native.Rtl83xx.VlanFilter

open HandsomeMod.ForStd
open Lag (Family Regs)

variable {f : Family} {r r0 : Regs} {q : Call} {hist : List Call}

/-! ### The filters of a port -/

/-- The ingress action of a port: two bits, 16 ports in a register. -/
def igrAction (f : Family) (r : Regs) (port : Nat) : BitVec 2 :=
  (r (vlanPortIgrFltr f port)).extractLsb' (2 * (port % 16)) 2

/-- The egress filter of a port: one bit, 32 ports in a register. -/
def egrBit (f : Family) (r : Regs) (port : Nat) : Bool :=
  (r (vlanPortEgrFltr f port)).getLsbD (port % 32)

/-- Drop or forward. -/
def action (vlanFiltering : Bool) : BitVec 2 := if vlanFiltering then 1#2 else 0#2

/-- The port whose ingress action the driver writes for `port`. -/
def igrTarget (port : Nat) : Nat := 16 * (port / 32) + port % 16

/-- The port whose egress filter the driver writes for `port`. -/
def egrTarget (port : Nat) : Nat := 32 * (port / 16) + port % 32

/-! ### What the calls say -/

/-- What the last of the calls `h`, the latest first, says about a port. -/
def lastCall (h : List Call) (port : Nat) : Option Bool :=
  (h.find? fun q => q.port = port).map Call.vlanFiltering

/-- The filters of all ports are as the last calls for them say. -/
structure FollowsLast (f : Family) (r : Regs) (h : List Call) : Prop where
  igr : ∀ p < f.cpuPort, ∀ b, lastCall h p = some b → igrAction f r p = action b
  egr : ∀ p ≤ f.cpuPort, ∀ b, lastCall h p = some b → egrBit f r p = b

/-- A call changes no bit of another port. -/
structure Framed (f : Family) (r : Regs) (q : Call) (r' : Regs) : Prop where
  igr : ∀ p ≤ f.cpuPort, p ≠ q.port → igrAction f r' p = igrAction f r p
  egr : ∀ p ≤ f.cpuPort, p ≠ q.port → egrBit f r' p = egrBit f r p

/-- A call for a port from 16 on is harmless if the filters of the port, and those of the ports that
    are written instead, are as the call says already. -/
def Call.Harmless (f : Family) (r : Regs) (q : Call) : Prop :=
  q.port < 16 ∨
    (q.port ≠ f.cpuPort → igrAction f r q.port = action q.vlanFiltering ∧
      igrAction f r (igrTarget q.port) = action q.vlanFiltering) ∧
    egrBit f r q.port = q.vlanFiltering ∧
    (egrTarget q.port ≤ f.cpuPort → egrBit f r (egrTarget q.port) = q.vlanFiltering)

/-! ### Bits of a filter -/

/-- Writing bits of a register. -/
private theorem getLsbD_maskReg (clear set : U32) (reg : Nat) (r : Regs) (c : Nat) {b : Nat}
    (hb : b < 32) :
    (maskReg clear set reg r c).getLsbD b =
      if c = reg then (r c).getLsbD b && !clear.getLsbD b || set.getLsbD b
      else (r c).getLsbD b := by
  unfold maskReg
  by_cases hc : c = reg
  · subst hc
    rw [Function.update_self, if_pos rfl, Lag.getLsbD_swW32Mask _ _ _ hb]
  · rw [Function.update_of_ne hc, if_neg hc]

/-- The bits of field `m` of a register that is made of fields of two bits. -/
private theorem getLsbD_field (c : BitVec 2) {m k i : Nat} (hk : k < 16) (hi : i < 2) :
    (c.setWidth 32 <<< (m <<< 1)).getLsbD (2 * k + i) = (decide (k = m) && c.getLsbD i) := by
  have h32 : 2 * k + i < 32 := by omega
  rw [BitVec.getLsbD_shiftLeft, Nat.shiftLeft_eq, pow_one]
  by_cases hkm : k = m
  · subst hkm
    have hsub : 2 * k + i - k * 2 = i := by omega
    simp [h32, hsub, show ¬2 * k + i < k * 2 by omega, show i < 32 by omega]
  · by_cases hlt : 2 * k + i < m * 2
    · simp [hkm, hlt]
    · -- the bit is behind the field
      have hge : 2 ≤ 2 * k + i - m * 2 := by omega
      simp [hkm, BitVec.getLsbD_of_ge c _ hge]

/-- A masked write of one field of two bits, seen from any field. -/
private theorem extractLsb'_maskReg (clear set : BitVec 2) (reg m : Nat) (r : Regs) (c : Nat)
    {k : Nat}
    (hk : k < 16) :
    (maskReg (clear.setWidth 32 <<< (m <<< 1)) (set.setWidth 32 <<< (m <<< 1)) reg r
        c).extractLsb' (2 * k) 2 =
      if c = reg ∧ k = m then ((r c).extractLsb' (2 * k) 2 &&& ~~~clear) ||| set
      else (r c).extractLsb' (2 * k) 2 := by
  apply BitVec.eq_of_getLsbD_eq
  intro i hi
  have h32 : 2 * k + i < 32 := by omega
  rw [BitVec.getLsbD_extractLsb', getLsbD_maskReg _ _ _ _ _ h32, getLsbD_field clear hk hi,
    getLsbD_field set hk hi]
  by_cases hc : c = reg
  · by_cases hm : k = m
    · simp [hc, hm, hi]
    · simp [hc, hm, hi]
  · simp [hc, hi]

/-! ### One call -/

/-- Forwarding has two bits. -/
private theorem forward_eq : (0b01#32) = (0b01#2).setWidth 32 := rfl

/-- Dropping has two bits. -/
private theorem drop_eq : (0b10#32) = (0b10#2).setWidth 32 := rfl

/-- The mask of an action has two bits. -/
private theorem both_eq : (0b11#32) = (0b11#2).setWidth 32 := rfl

/-- The action zero, at its place. -/
private theorem zero_eq (m : Nat) : (0#32) = (0b00#2).setWidth 32 <<< (m <<< 1) := by simp

/-- The write of an ingress action. -/
def writeIgr (f : Family) (r : Regs) (q : Call) : Regs :=
  if q.vlanFiltering then
    maskReg (0b10#32 <<< ((q.port % 16) <<< 1)) (0b01#32 <<< ((q.port % 16) <<< 1))
      (vlanPortIgrFilter f + ((q.port >>> 5) <<< 2)) r
  else
    maskReg (0b11#32 <<< ((q.port % 16) <<< 1)) 0#32 (vlanPortIgrFilter f + ((q.port >>> 5) <<< 2)) r

/-- The write of an egress filter. -/
def writeEgr (f : Family) (r : Regs) (q : Call) : Regs :=
  if q.vlanFiltering then
    maskReg 0#32 (bit32 (q.port % 32)) (vlanPortEgrFilter f + ((q.port >>> 4) <<< 2)) r
  else maskReg (bit32 (q.port % 32)) 0#32 (vlanPortEgrFilter f + ((q.port >>> 4) <<< 2)) r

/-- A call writes the ingress register of a port, and its egress bit. -/
private theorem vlanFiltering_eq (f : Family) (r : Regs) (q : Call) :
    vlanFiltering f r q = writeEgr f (if q.port ≠ f.cpuPort then writeIgr f r q else r) q := by
  unfold vlanFiltering writeEgr writeIgr
  cases q.vlanFiltering <;> simp

/-- The ingress register of a port, in words from the first one. -/
private theorem vlanPortIgrFltr_eq (f : Family) (p : Nat) :
    vlanPortIgrFltr f p = vlanPortIgrFilter f + 4 * (p / 16) := by
  cases f <;> simp [vlanPortIgrFilter, vlanPortIgrFltr, Nat.shiftLeft_eq, Nat.shiftRight_eq_div_pow]
    <;> omega

/-- The egress register of a port, in words from the first one. -/
private theorem vlanPortEgrFltr_eq {p : Nat} (hp : p ≤ f.cpuPort) :
    vlanPortEgrFltr f p = vlanPortEgrFilter f + 4 * (p / 32) := by
  cases f <;> simp [vlanPortEgrFilter, vlanPortEgrFltr, Family.cpuPort, Nat.shiftLeft_eq,
    Nat.shiftRight_eq_div_pow] at hp ⊢ <;> omega

/-- The ingress registers of the ports are in front of the egress registers. -/
private theorem vlanPortIgrFltr_lt {p : Nat} (hp : p ≤ f.cpuPort) :
    vlanPortIgrFltr f p < vlanPortEgrFilter f := by
  rw [vlanPortIgrFltr_eq]
  cases f <;> simp [vlanPortIgrFilter, vlanPortIgrFltr, vlanPortEgrFilter, vlanPortEgrFltr,
    Family.cpuPort] at hp ⊢ <;> omega

/-- The ingress register that is written. -/
private theorem igrAction_writeIgr (r : Regs) (q : Call) (p : Nat) :
    igrAction f (writeIgr f r q) p =
      if p = igrTarget q.port then action q.vlanFiltering else igrAction f r p := by
  have hk : p % 16 < 16 := Nat.mod_lt _ (by decide)
  have hreg : (vlanPortIgrFltr f p = vlanPortIgrFilter f + ((q.port >>> 5) <<< 2) ∧
      p % 16 = q.port % 16) ↔ p = igrTarget q.port := by
    rw [vlanPortIgrFltr_eq, igrTarget, Nat.shiftLeft_eq, Nat.shiftRight_eq_div_pow]
    omega
  unfold igrAction writeIgr action
  -- filtering writes the two bits in two steps, the other direction in one
  cases q.vlanFiltering with
  | true =>
    rw [if_pos rfl, forward_eq, drop_eq, extractLsb'_maskReg _ _ _ _ _ _ hk]
    simp only [hreg]
    -- clearing the upper bit and setting the lower one leaves 1
    split
    · generalize (r (vlanPortIgrFltr f p)).extractLsb' (2 * (p % 16)) 2 = x
      revert x
      decide
    · rfl
  | false =>
    rw [if_neg (by decide), both_eq, zero_eq (q.port % 16), extractLsb'_maskReg _ _ _ _ _ _ hk]
    simp only [hreg]
    split
    · generalize (r (vlanPortIgrFltr f p)).extractLsb' (2 * (p % 16)) 2 = x
      revert x
      decide
    · rfl

/-- The egress bit that is written. -/
private theorem egrBit_writeEgr (r : Regs) (q : Call) {p : Nat} (hp : p ≤ f.cpuPort) :
    egrBit f (writeEgr f r q) p =
      if p = egrTarget q.port then q.vlanFiltering else egrBit f r p := by
  have h32 : p % 32 < 32 := Nat.mod_lt _ (by decide)
  have hq32 : q.port % 32 < 32 := Nat.mod_lt _ (by decide)
  -- the register that is written counts ports by 16, the bit by 32
  have hreg : (vlanPortEgrFltr f p = vlanPortEgrFilter f + ((q.port >>> 4) <<< 2) ∧
      p % 32 = q.port % 32) ↔ p = egrTarget q.port := by
    rw [vlanPortEgrFltr_eq hp, egrTarget, Nat.shiftLeft_eq, Nat.shiftRight_eq_div_pow]
    omega
  unfold egrBit writeEgr
  simp only [← hreg]
  cases q.vlanFiltering with
  | true =>
    rw [if_pos rfl, getLsbD_maskReg _ _ _ _ _ h32, getLsbD_bit32 hq32]
    by_cases hc : vlanPortEgrFltr f p = vlanPortEgrFilter f + ((q.port >>> 4) <<< 2) <;>
      by_cases hb : p % 32 = q.port % 32 <;> simp [hc, hb]
  | false =>
    rw [if_neg (by decide), getLsbD_maskReg _ _ _ _ _ h32, getLsbD_bit32 hq32]
    by_cases hc : vlanPortEgrFltr f p = vlanPortEgrFilter f + ((q.port >>> 4) <<< 2) <;>
      by_cases hb : p % 32 = q.port % 32 <;> simp [hc, hb]

/-- The egress write leaves the ingress registers alone. -/
private theorem igrAction_writeEgr (r : Regs) (q : Call) {p : Nat} (hp : p ≤ f.cpuPort) :
    igrAction f (writeEgr f r q) p = igrAction f r p := by
  have hlt := vlanPortIgrFltr_lt hp
  have hne : vlanPortIgrFltr f p ≠ vlanPortEgrFilter f + ((q.port >>> 4) <<< 2) := by omega
  unfold igrAction writeEgr maskReg
  split <;> rw [Function.update_of_ne hne]

/-- The ingress write leaves the egress registers alone. -/
private theorem egrBit_writeIgr (r : Regs) (hq : q.port ≤ f.cpuPort) (p : Nat) :
    egrBit f (writeIgr f r q) p = egrBit f r p := by
  have hlt := vlanPortIgrFltr_lt hq
  have hle : vlanPortEgrFilter f ≤ vlanPortEgrFltr f p := by
    cases f <;> simp [vlanPortEgrFilter, vlanPortEgrFltr]
  have hne : vlanPortEgrFltr f p ≠ vlanPortIgrFilter f + ((q.port >>> 5) <<< 2) := by
    rw [vlanPortIgrFltr_eq] at hlt
    rw [Nat.shiftLeft_eq, Nat.shiftRight_eq_div_pow]
    omega
  unfold egrBit writeIgr maskReg
  split <;> rw [Function.update_of_ne hne]

/-- What a call does to the ingress actions. -/
private theorem igrAction_vlanFiltering (r : Regs) (q : Call) {p : Nat} (hp : p ≤ f.cpuPort) :
    igrAction f (vlanFiltering f r q) p =
      if q.port ≠ f.cpuPort ∧ p = igrTarget q.port then action q.vlanFiltering
      else igrAction f r p := by
  rw [vlanFiltering_eq, igrAction_writeEgr _ _ hp]
  by_cases hcpu : q.port = f.cpuPort
  · simp [hcpu]
  · rw [if_pos hcpu, igrAction_writeIgr]
    simp [hcpu]

/-- What a call does to the egress filters. -/
private theorem egrBit_vlanFiltering (r : Regs) (hq : q.port ≤ f.cpuPort) {p : Nat}
    (hp : p ≤ f.cpuPort) :
    egrBit f (vlanFiltering f r q) p =
      if p = egrTarget q.port then q.vlanFiltering else egrBit f r p := by
  rw [vlanFiltering_eq, egrBit_writeEgr _ _ hp]
  split
  · rfl
  · split
    · exact egrBit_writeIgr r hq p
    · rfl

/-! ### The targets -/

/-- Only the registers of the first 16 ports are the right ones. -/
private theorem igrTarget_eq_iff (p : Nat) : igrTarget p = p ↔ p < 16 := by
  unfold igrTarget
  omega

/-- Only the egress bits of the first 16 ports are the right ones. -/
private theorem egrTarget_eq_iff (p : Nat) : egrTarget p = p ↔ p < 16 := by
  unfold egrTarget
  omega

/-- Another register is one of a lower port. -/
private theorem igrTarget_le (p : Nat) : igrTarget p ≤ p := by
  unfold igrTarget
  omega

/-! ### Runs -/

/-- A call is the last one for its port. -/
private theorem lastCall_cons (q : Call) (h : List Call) (p : Nat) :
    lastCall (q :: h) p = if q.port = p then some q.vlanFiltering else lastCall h p := by
  unfold lastCall
  rw [List.find?_cons]
  by_cases hp : q.port = p <;> simp [hp]

/-- A harmless call keeps to itself. -/
theorem framed_of_harmless (hq : q.port ≤ f.cpuPort) (hok : q.Harmless f r) :
    Framed f r q (vlanFiltering f r q) := by
  constructor
  -- the ingress action, then the egress bit, of a port that is not the one asked for
  · intro p hp hne
    rw [igrAction_vlanFiltering r q hp]
    split
    · next h =>
      obtain ⟨hcpu, rfl⟩ := h
      -- the call writes another port, so it is for a port from 16 on
      obtain hlt | ⟨higr, -⟩ := hok
      · exact absurd ((igrTarget_eq_iff _).mpr hlt) hne
      · exact (higr hcpu).2.symm
    · rfl
  · intro p hp hne
    rw [egrBit_vlanFiltering r hq hp]
    split
    · next h =>
      subst h
      obtain hlt | ⟨-, -, hegr⟩ := hok
      · exact absurd ((egrTarget_eq_iff _).mpr hlt) hne
      · exact (hegr hp).symm
    · rfl

/-- A harmless call leaves the filters of its port as it says. -/
private theorem own_of_harmless (hq : q.port ≤ f.cpuPort) (hok : q.Harmless f r) :
    (q.port ≠ f.cpuPort →
      igrAction f (vlanFiltering f r q) q.port = action q.vlanFiltering) ∧
    egrBit f (vlanFiltering f r q) q.port = q.vlanFiltering := by
  rw [igrAction_vlanFiltering r q hq, egrBit_vlanFiltering r hq hq]
  -- the call writes the fields of its own port, or those had its value before
  obtain hlt | ⟨higr, hegr, -⟩ := hok
  · rw [(igrTarget_eq_iff _).mpr hlt, (egrTarget_eq_iff _).mpr hlt]
    simp +contextual
  · constructor
    · intro hcpu
      split
      · rfl
      · exact (higr hcpu).1
    · split
      · rfl
      · exact hegr

/-- The step of the invariant. -/
theorem FollowsLast.call (h : FollowsLast f r hist) (hq : q.port ≤ f.cpuPort)
    (hok : q.Harmless f r) : FollowsLast f (vlanFiltering f r q) (q :: hist) := by
  have hframe := framed_of_harmless hq hok
  obtain ⟨higr, hegr⟩ := own_of_harmless hq hok
  constructor
  · intro p hp b hb
    rw [lastCall_cons] at hb
    split at hb
    · next heq =>
      subst heq
      rw [higr (Nat.ne_of_lt hp), ← Option.some.inj hb]
    -- another port: the frame keeps its bit, and its last call is an older one
    · next hne =>
      rw [hframe.igr p (Nat.le_of_lt hp) (Ne.symm hne), h.igr p hp b hb]
  · intro p hp b hb
    rw [lastCall_cons] at hb
    split at hb
    · next heq =>
      subst heq
      rw [hegr, ← Option.some.inj hb]
    · next hne =>
      rw [hframe.egr p hp (Ne.symm hne), h.egr p hp b hb]

/-- A call that is as it should be is harmless. -/
theorem harmless_of_good (hq : q.port ≤ f.cpuPort)
    (hlast : FollowsLast f (vlanFiltering f r q) (q :: hist))
    (hframe : Framed f r q (vlanFiltering f r q)) : q.Harmless f r := by
  by_cases hlt : q.port < 16
  · exact Or.inl hlt
  have higrNe : igrTarget q.port ≠ q.port := fun h => hlt ((igrTarget_eq_iff _).mp h)
  have hegrNe : egrTarget q.port ≠ q.port := fun h => hlt ((egrTarget_eq_iff _).mp h)
  have hown : lastCall (q :: hist) q.port = some q.vlanFiltering := by
    rw [lastCall_cons, if_pos rfl]
  -- from port 16 on the call writes elsewhere: its own bits were right before, and the others are
  -- unchanged
  refine Or.inr ⟨fun hcpu => ?_, ?_, fun hle => ?_⟩
  · have hold := hlast.igr q.port (Nat.lt_of_le_of_ne hq hcpu) _ hown
    rw [igrAction_vlanFiltering r q hq, if_neg (fun h => higrNe h.2.symm)] at hold
    have htarget : igrTarget q.port ≤ f.cpuPort := le_trans (igrTarget_le _) hq
    have hkeep := hframe.igr _ htarget higrNe
    rw [igrAction_vlanFiltering r q htarget, if_pos ⟨hcpu, rfl⟩] at hkeep
    exact ⟨hold, hkeep.symm⟩
  · have hold := hlast.egr q.port hq _ hown
    rwa [egrBit_vlanFiltering r hq hq, if_neg hegrNe.symm] at hold
  · have hkeep := hframe.egr _ hle hegrNe
    rw [egrBit_vlanFiltering r hq hle, if_pos rfl] at hkeep
    exact hkeep.symm

/-- A call, with the calls that were made before it. -/
def record (f : Family) (s : Regs × List Call) (q : Call) : Regs × List Call :=
  (vlanFiltering f s.1 q, q :: s.2)

/-- Without a call there is nothing to follow. -/
theorem followsLast_nil (f : Family) (r : Regs) : FollowsLast f r [] where
  igr _ _ _ hb := by cases hb
  egr _ _ _ hb := by cases hb

/-- The filters follow the last calls, and no call changes a bit of another port, throughout a run
    exactly if all its calls are harmless. -/
theorem run_filters_iff (f : Family) (r : Regs) (calls : List Call)
    (hcalls : ∀ q ∈ calls, q.port ≤ f.cpuPort) :
    Along (record f) (fun s q s' => FollowsLast f s'.1 s'.2 ∧ Framed f s.1 q s'.1) (r, []) calls ↔
      Along (record f) (fun s q _ => q.Harmless f s.1) (r, []) calls := by
  -- a harmless call keeps the log and the registers in step
  have hkeep : ∀ (s : Regs × List Call) (q : Call), FollowsLast f s.1 s.2 → q.port ≤ f.cpuPort →
      q.Harmless f s.1 → FollowsLast f (record f s q).1 (record f s q).2 ∧
        (FollowsLast f (record f s q).1 (record f s q).2 ∧ Framed f s.1 q (record f s q).1) := by
    intro s q hinv hq hok
    have hnext := hinv.call hq hok
    exact ⟨hnext, hnext, framed_of_harmless hq hok⟩
  -- and a call that keeps them is harmless
  have hbreak : ∀ (s : Regs × List Call) (q : Call), FollowsLast f s.1 s.2 → q.port ≤ f.cpuPort →
      FollowsLast f (record f s q).1 (record f s q).2 ∧ Framed f s.1 q (record f s q).1 →
        q.Harmless f s.1 :=
    fun s q _ hq hgood => harmless_of_good hq hgood.1 hgood.2
  have hallowed : Along (record f) (fun _ q _ => q.port ≤ f.cpuPort) (r, []) calls :=
    Along.of_forall hcalls
  exact @Along.iff_of_invariant _ _ _ _ _ _ (fun s => FollowsLast f s.1 s.2) _ _ hkeep hbreak
    (followsLast_nil f r) hallowed

/-- Ports 0 and 15 of an RTL8390 are filtered, and port 0 is not filtered then. -/
theorem run_filters_low :
    Along (record .rtl8390)
      (fun s q s' => FollowsLast .rtl8390 s'.1 s'.2 ∧ Framed .rtl8390 s.1 q s'.1)
      ((fun _ => 0#32), []) [⟨0, true⟩, ⟨15, true⟩, ⟨0, false⟩] := by
  refine (run_filters_iff .rtl8390 _ _ fun q hq => ?_).mpr ?_
  · fin_cases hq <;> decide
  · exact ⟨Or.inl (by decide), Or.inl (by decide), Or.inl (by decide), trivial⟩

/-- On an RTL8380 the filters of port 16 do not follow a call for it: port 0 drops instead. -/
theorem run_filters_high :
    (∀ q ∈ [Call.mk 16 true], q.port ≤ Family.cpuPort .rtl8380) ∧
    ¬Along (record .rtl8380)
      (fun s q s' => FollowsLast .rtl8380 s'.1 s'.2 ∧ Framed .rtl8380 s.1 q s'.1)
      ((fun _ => 0#32), []) [⟨16, true⟩] := by
  refine ⟨fun q hq => ?_, fun hgood => ?_⟩
  · fin_cases hq
    decide
  · have higr := hgood.1.1.igr 16 (by decide) true rfl
    revert higr
    decide

end HandsomeMod.Native.Rtl83xx.VlanFilter
