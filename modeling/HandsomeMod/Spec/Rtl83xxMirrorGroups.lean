import HandsomeMod.ForStd.Run
import HandsomeMod.Native.Rtl83xxMirror
import HandsomeMod.Spec.Rtl83xxLagOps

/-!
# Registers of the mirroring groups

A group has a control register and a port mask for each direction. The words of these do not
overlap, so that a write to one of them is seen in that one only.
-/

namespace HandsomeMod.Native.Rtl83xx.Mirror

open Lag (Family Regs)

variable {f : Family} {r : Regs} {s : Priv}

/-! ### Port masks -/

/-- The words of the port mask at `reg`. -/
def IsWord (f : Family) (reg c : Nat) : Prop := c = reg ∨ (portWidth f = 2 ∧ c = reg + 4)

/-- A port mask depends on its words only. -/
private theorem getPortRegBe_congr {r' : Regs} {reg : Nat} (h : ∀ c, IsWord f reg c → r' c = r c) :
    f.getPortRegBe reg r' = f.getPortRegBe reg r := by
  have hfirst := h reg (Or.inl rfl)
  cases f with
  | rtl8380 => simp only [Family.getPortRegBe, hfirst]
  | rtl9300 => simp only [Family.getPortRegBe, hfirst]
  | rtl8390 =>
    have hsecond := h (reg + 4) (Or.inr ⟨rfl, rfl⟩)
    simp only [Family.getPortRegBe, Lag.rtl839xGetPortRegBe, hfirst, hsecond]
  | rtl9310 =>
    have hsecond := h (reg + 4) (Or.inr ⟨rfl, rfl⟩)
    simp only [Family.getPortRegBe, Lag.rtl839xGetPortRegBe, hfirst, hsecond]

/-- A masked write changes no register but the words of the mask. -/
private theorem maskPortRegBe_of_not_isWord (clear set : U64) {reg c : Nat} (h : ¬IsWord f reg c) :
    f.maskPortRegBe clear set reg r c = r c := by
  have hfirst : c ≠ reg := fun heq => h (Or.inl heq)
  cases f with
  | rtl8380 => exact Function.update_of_ne hfirst ..
  | rtl9300 => exact Function.update_of_ne hfirst ..
  -- two words for a group
  | rtl8390 =>
    have hsecond : c ≠ reg + 4 := fun heq => h (Or.inr ⟨rfl, heq⟩)
    simp only [Family.maskPortRegBe, Lag.rtl839xMaskPortRegBe]
    rw [Function.update_of_ne hsecond, Function.update_of_ne hfirst]
  | rtl9310 =>
    have hsecond : c ≠ reg + 4 := fun heq => h (Or.inr ⟨rfl, heq⟩)
    simp only [Family.maskPortRegBe, Lag.rtl839xMaskPortRegBe]
    rw [Function.update_of_ne hsecond, Function.update_of_ne hfirst]

/-- The bits of a port mask are those of its family's ports. -/
private theorem getLsbD_getPortRegBe_of_le (reg : Nat) {b : Nat} (hb : f.width ≤ b) :
    (f.getPortRegBe reg r).getLsbD b = false := by
  cases f with
  | rtl8380 =>
    have h32 : 32 ≤ b := hb
    simp [Family.getPortRegBe, getPortReg, BitVec.getLsbD_of_ge (r reg) b h32]
  | rtl9300 =>
    have h32 : 32 ≤ b := hb
    simp [Family.getPortRegBe, getPortReg, BitVec.getLsbD_of_ge (r reg) b h32]
  | rtl8390 => exact BitVec.getLsbD_of_ge _ b hb
  | rtl9310 => exact BitVec.getLsbD_of_ge _ b hb

/-- Writing ports of a register pair. -/
private theorem getLsbD_wide (clear set : U64) (reg : Nat) {b : Nat} (hb : b < 64) :
    (Lag.rtl839xGetPortRegBe reg (Lag.rtl839xMaskPortRegBe clear set reg r)).getLsbD b =
      ((Lag.rtl839xGetPortRegBe reg r).getLsbD b && !clear.getLsbD b || set.getLsbD b) := by
  rw [Lag.getLsbD_rtl839xGetPortRegBe _ _ hb, Lag.getLsbD_rtl839xGetPortRegBe _ _ hb]
  by_cases h32 : b < 32
  · rw [if_pos h32, if_pos h32, Lag.getLsbD_rtl839xMaskPortRegBe _ _ _ _ _ h32]
    simp
  · have hback : b - 32 + 32 = b := by omega
    rw [if_neg h32, if_neg h32, Lag.getLsbD_rtl839xMaskPortRegBe _ _ _ _ _ (by omega), hback]
    simp

/-- A masked write, as it is read back. -/
private theorem getLsbD_mask_self (clear set : U64) (reg : Nat) {b : Nat} (hb : b < f.width) :
    (f.getPortRegBe reg (f.maskPortRegBe clear set reg r)).getLsbD b =
      ((f.getPortRegBe reg r).getLsbD b && !clear.getLsbD b || set.getLsbD b) := by
  cases f with
  | rtl8380 =>
    simp only [Family.getPortRegBe, Family.maskPortRegBe, Function.update_self]
    rw [getLsbD_getPortReg _ hb, getLsbD_maskPortReg _ _ _ hb, getLsbD_getPortReg _ hb]
  | rtl9300 =>
    simp only [Family.getPortRegBe, Family.maskPortRegBe, Function.update_self]
    rw [getLsbD_getPortReg _ hb, getLsbD_maskPortReg _ _ _ hb, getLsbD_getPortReg _ hb]
  | rtl8390 => exact getLsbD_wide clear set reg hb
  | rtl9310 => exact getLsbD_wide clear set reg hb

/-- The first word of a mask has the bits of the upper half, where a mask has two words. -/
private theorem word_eq_zero_iff (reg : Nat) :
    r reg = 0#32 ↔ ∀ b, 32 * (portWidth f - 1) ≤ b → (f.getPortRegBe reg r).getLsbD b = false := by
  constructor
  · intro h b hb
    -- the driver reads one word: all of the mask for 28 ports, its upper half for 52
    cases f with
    | rtl8380 => simp [Family.getPortRegBe, getPortReg, h]
    | rtl9300 => simp [Family.getPortRegBe, getPortReg, h]
    | rtl8390 =>
      have h32 : ¬b < 32 := Nat.not_lt.mpr hb
      by_cases h64 : b < 64
      · simp only [Family.getPortRegBe]
        rw [Lag.getLsbD_rtl839xGetPortRegBe _ _ h64, if_neg h32, h, BitVec.getLsbD_zero]
      · exact BitVec.getLsbD_of_ge _ b (Nat.le_of_not_lt h64)
    | rtl9310 =>
      have h32 : ¬b < 32 := Nat.not_lt.mpr hb
      by_cases h64 : b < 64
      · simp only [Family.getPortRegBe]
        rw [Lag.getLsbD_rtl839xGetPortRegBe _ _ h64, if_neg h32, h, BitVec.getLsbD_zero]
      · exact BitVec.getLsbD_of_ge _ b (Nat.le_of_not_lt h64)
  · intro h
    apply BitVec.eq_of_getLsbD_eq
    intro i hi
    rw [BitVec.getLsbD_zero]
    -- each bit of the word is one of the mask from there on
    have hbit := h (32 * (portWidth f - 1) + i) (Nat.le_add_right _ _)
    cases f with
    | rtl8380 =>
      simp only [portWidth, Family.getPortRegBe] at hbit
      rwa [getLsbD_getPortReg _ (by omega), show 32 * (1 - 1) + i = i by omega] at hbit
    | rtl9300 =>
      simp only [portWidth, Family.getPortRegBe] at hbit
      rwa [getLsbD_getPortReg _ (by omega), show 32 * (1 - 1) + i = i by omega] at hbit
    | rtl8390 =>
      simp only [portWidth, Family.getPortRegBe] at hbit
      rwa [Lag.getLsbD_rtl839xGetPortRegBe _ _ (by omega), if_neg (by omega),
        show 32 * (2 - 1) + i - 32 = i by omega] at hbit
    | rtl9310 =>
      simp only [portWidth, Family.getPortRegBe] at hbit
      rwa [Lag.getLsbD_rtl839xGetPortRegBe _ _ (by omega), if_neg (by omega),
        show 32 * (2 - 1) + i - 32 = i by omega] at hbit

/-! ### Groups -/

/-- The port mask of a group for a direction: ingress or egress. -/
def maskReg (f : Family) (ingress : Bool) (group : Nat) : Nat :=
  if ingress then spmReg f group else dpmReg f group

def Priv.mask (s : Priv) (f : Family) (ingress : Bool) (group : Nat) : U64 :=
  f.getPortRegBe (maskReg f ingress group) s.regs

def Priv.ctrl (s : Priv) (f : Family) (group : Nat) : U32 := s.regs (ctrlReg f group)

/-- The masks of two groups or directions have no word in common. -/
private theorem not_isWord_maskReg {g h : Nat} (hg : g < 4) (hh : h < 4) {d d' : Bool}
    (hne : ¬(d = d' ∧ g = h)) {c : Nat} (hc : IsWord f (maskReg f d g) c) :
    ¬IsWord f (maskReg f d' h) c := by
  unfold IsWord at hc ⊢
  cases f <;> cases d <;> cases d' <;>
    simp [maskReg, spmReg, dpmReg, mirSpm, mirDpm, portWidth] at hc hne ⊢ <;> omega

/-- The control registers are no words of a mask. -/
private theorem not_isWord_ctrlReg {g h : Nat} (hg : g < 4) (hh : h < 4) (d : Bool) :
    ¬IsWord f (maskReg f d g) (ctrlReg f h) := by
  unfold IsWord
  cases f <;> cases d <;>
    simp [maskReg, spmReg, dpmReg, mirSpm, mirDpm, portWidth, ctrlReg, mirCtrl] <;> omega

/-- The groups have different control registers. -/
private theorem ctrlReg_inj {g h : Nat} (heq : ctrlReg f g = ctrlReg f h) : g = h := by
  unfold ctrlReg at heq
  omega

/-! ### Writes -/

/-- The control register of a group is written. -/
def Priv.writeCtrl (s : Priv) (f : Family) (group : Nat) (v : U32) : Priv :=
  { s with regs := Function.update s.regs (ctrlReg f group) v }

/-- A port mask is written. -/
def Priv.writeMask (s : Priv) (f : Family) (ingress : Bool) (group : Nat) (clear set : U64) : Priv :=
  { s with regs := f.maskPortRegBe clear set (maskReg f ingress group) s.regs }

/-- Writing the control register of a group. -/
private theorem ctrl_writeCtrl (g h : Nat) (v : U32) :
    (s.writeCtrl f g v).ctrl f h = if h = g then v else s.ctrl f h := by
  unfold Priv.ctrl Priv.writeCtrl
  by_cases heq : h = g
  · simp [heq]
  · have hne : ctrlReg f h ≠ ctrlReg f g := fun h => heq (ctrlReg_inj h)
    simp [heq, hne]

/-- The masks do not overlap with it. -/
private theorem mask_writeCtrl {g h : Nat} (hg : g < 4) (hh : h < 4) (d : Bool) (v : U32) :
    (s.writeCtrl f g v).mask f d h = s.mask f d h := by
  apply getPortRegBe_congr
  intro c hc
  have hne : c ≠ ctrlReg f g := by
    rintro rfl
    exact not_isWord_ctrlReg hh hg d hc
  exact Function.update_of_ne hne ..

/-- Writing a mask keeps the control registers. -/
private theorem ctrl_writeMask {g h : Nat} (hg : g < 4) (hh : h < 4) (d : Bool) (clear set : U64) :
    (s.writeMask f d g clear set).ctrl f h = s.ctrl f h :=
  maskPortRegBe_of_not_isWord clear set (not_isWord_ctrlReg hg hh d)

/-- A write to the mask of a group and direction, as it is read back in all of them. -/
private theorem mask_writeMask {g h : Nat} (hg : g < 4) (hh : h < 4) (d d' : Bool) {clear set : U64}
    (hset : ∀ b, f.width ≤ b → set.getLsbD b = false) :
    (s.writeMask f d g clear set).mask f d' h =
      if d' = d ∧ h = g then s.mask f d' h &&& ~~~clear ||| set else s.mask f d' h := by
  split
  · next heq =>
    obtain ⟨rfl, rfl⟩ := heq
    apply BitVec.eq_of_getLsbD_eq
    intro b hb
    rw [BitVec.getLsbD_or, BitVec.getLsbD_and, BitVec.getLsbD_not]
    by_cases hw : b < f.width
    · rw [Priv.mask, Priv.writeMask, getLsbD_mask_self clear set _ hw]
      simp [Priv.mask, hb]
    -- no port is there: the register has no such bit, and none is set
    · have hge : f.width ≤ b := Nat.le_of_not_lt hw
      rw [Priv.mask, getLsbD_getPortRegBe_of_le _ hge, Priv.mask,
        getLsbD_getPortRegBe_of_le _ hge, hset b hge]
      simp
  · next hne =>
    apply getPortRegBe_congr
    intro c hc
    exact maskPortRegBe_of_not_isWord clear set (not_isWord_maskReg hh hg hne hc)

/-- A port is below the width of the registers. -/
private theorem getLsbD_bitUll_of_width {p b : Nat} (hp : p < f.width) (hb : f.width ≤ b) :
    (bitUll p).getLsbD b = false := by
  have h64 : f.width ≤ 64 := by cases f <;> decide
  rw [getLsbD_bitUll (Nat.lt_of_lt_of_le hp h64)]
  exact decide_eq_false (by omega)

/-- A source port is added to a mask. -/
private theorem mask_set {g h : Nat} (hg : g < 4) (hh : h < 4) (d d' : Bool) {p : Nat}
    (hp : p < f.width) :
    (s.writeMask f d g 0#64 (bitUll p)).mask f d' h =
      if d' = d ∧ h = g then s.mask f d' h ||| bitUll p else s.mask f d' h := by
  rw [mask_writeMask hg hh d d' fun b hb => getLsbD_bitUll_of_width hp hb, BitVec.not_zero,
    BitVec.and_allOnes]

/-- A source port is removed from a mask. -/
private theorem mask_clear {g h : Nat} (hg : g < 4) (hh : h < 4) (d d' : Bool) (p : Nat) :
    (s.writeMask f d g (bitUll p) 0#64).mask f d' h =
      if d' = d ∧ h = g then s.mask f d' h &&& ~~~bitUll p else s.mask f d' h := by
  rw [mask_writeMask hg hh d d' fun _ _ => BitVec.getLsbD_zero]
  simp

end HandsomeMod.Native.Rtl83xx.Mirror

/-!
## Consistent mirroring groups

Groups with a destination port mirror from some source port, all others are switched off, and no
call disturbs the sources of the others. The exception is a removal on the families with masks of
two words: a group whose last sources are ports below 32 is freed with them.
-/

namespace HandsomeMod.Native.Rtl83xx.Mirror

open HandsomeMod.ForStd
open Lag (Family Regs)

variable {f : Family} {s s' : Priv} {q : Call}

/-! ### The property -/

/-- Port `p` is a source of a group in a direction. -/
def Priv.Source (s : Priv) (f : Family) (g : Nat) (ingress : Bool) (p : Nat) : Prop :=
  (s.mask f ingress g).getLsbD p = true

instance (s : Priv) (f : Family) (g : Nat) (ingress : Bool) (p : Nat) :
    Decidable (s.Source f g ingress p) :=
  inferInstanceAs (Decidable ((s.mask f ingress g).getLsbD p = true))

/-- Every group with a destination port is enabled towards it and has a source, every other one is
    off and has none, and no port is the destination of two groups. -/
structure GroupsOk (f : Family) (s : Priv) : Prop where
  used : ∀ g < 4, ∀ dest : Nat, s.mirrorGroupPorts g = dest →
    s.ctrl f g = ctrlValue f dest ∧ ∃ d p, s.Source f g d p
  free : ∀ g < 4, s.mirrorGroupPorts g < 0 → s.ctrl f g = 0#32 ∧ ∀ d, s.mask f d g = 0#64
  unique : ∀ g < 4, ∀ h < 4, 0 ≤ s.mirrorGroupPorts g →
    s.mirrorGroupPorts g = s.mirrorGroupPorts h → g = h

/-- A removal clears the bit of its own source and direction only, and a group that has a source
    afterwards is as it was. -/
structure Removes (f : Family) (s : Priv) (port : Nat) (mirror : MirrorTcEntry) (s' : Priv) :
    Prop where
  sources : ∀ g < 4, ∀ d p, s'.Source f g d p ↔
    s.Source f g d p ∧
      ¬(s.mirrorGroupPorts g = mirror.toLocalPort ∧ d = mirror.ingress ∧ p = port)
  enabled : ∀ g < 4, (∃ d p, s'.Source f g d p) →
    s'.mirrorGroupPorts g = s.mirrorGroupPorts g ∧ s'.ctrl f g = s.ctrl f g

/-- What a call keeps: an add that fails changes nothing, a removal nothing else. -/
def Keeps (f : Family) (s : Priv) : Call → Option Errno × Priv → Prop
  | .add _ _, out => out.1 ≠ none → out.2 = s
  | .del port mirror, out => Removes f s port mirror out.2

/-- A source that is left when one is removed. -/
def Priv.Left (s : Priv) (f : Family) (g port : Nat) (mirror : MirrorTcEntry) (d : Bool) (p : Nat) :
    Prop :=
  s.Source f g d p ∧ ¬(d = mirror.ingress ∧ p = port)

/-- A removal is harmless if a group that it leaves with a source has one left in the first word of
    a mask: the ports from 32 on where a mask has two words. -/
def Call.Harmless (f : Family) (s : Priv) : Call → Prop
  | .add _ _ => True
  | .del port mirror => ∀ g < 4, s.mirrorGroupPorts g = mirror.toLocalPort →
      (∃ d p, s.Left f g port mirror d p) →
        ∃ d p, s.Left f g port mirror d p ∧ 32 * (portWidth f - 1) ≤ p

/-! ### Searches -/

/-- A group that is found passes the test. -/
private theorem findGroup_some {test : Int → Bool} {g : Nat} (h : findGroup s test = some g) :
    g < 4 ∧ test (s.mirrorGroupPorts g) = true := by
  refine ⟨List.mem_range.mp (List.mem_of_find?_eq_some h), ?_⟩
  exact List.find?_some (p := fun g => test (s.mirrorGroupPorts g)) h

/-- Without one no group passes the test. -/
private theorem findGroup_none {test : Int → Bool} (h : findGroup s test = none) {g : Nat}
    (hg : g < 4) :
    test (s.mirrorGroupPorts g) = false := by
  have hall := List.find?_eq_none.mp h g (List.mem_range.mpr hg)
  simpa using hall

/-! ### Adds -/

/-- Adding a port to a group writes its control register first. -/
private theorem addToGroup_eq (f : Family) (s : Priv) (g port : Nat) (mirror : MirrorTcEntry)
    (ingress : Bool) (hport : port < 64) :
    addToGroup f s g port mirror ingress =
      if (((s.writeCtrl f g (ctrlValue f mirror.toLocalPort)).mask f ingress g).getLsbD port) then
        (some .eexist, s.writeCtrl f g (ctrlValue f mirror.toLocalPort))
      else
        (none, { (s.writeCtrl f g (ctrlValue f mirror.toLocalPort)).writeMask f ingress g 0#64
            (bitUll port) with
          mirrorGroupPorts := Function.update s.mirrorGroupPorts g mirror.toLocalPort }) := by
  have hbit (x : U64) : x &&& bitUll port ≠ 0#64 ↔ x.getLsbD port = true := by
    rw [ne_eq, Lag.and_bitUll_eq_zero x hport, Bool.not_eq_false]
  unfold addToGroup
  cases ingress with
  | true =>
    simp only [hbit, true_and, not_true_eq_false, false_and, if_false, if_true]
    rfl
  | false =>
    simp only [hbit, Bool.false_eq_true, false_and, not_false_eq_true, true_and, if_false]
    rfl

/-- An add to the group of its destination writes what is there already, and adds the source. -/
theorem GroupsOk.addToGroup_used (h : GroupsOk f s) {g port : Nat} {mirror : MirrorTcEntry}
    (hg : g < 4) (hport : port < f.width) (hdest : s.mirrorGroupPorts g = mirror.toLocalPort)
    (ingress : Bool) :
    GroupsOk f (addToGroup f s g port mirror ingress).2 ∧
      ((addToGroup f s g port mirror ingress).1 ≠ none →
        (addToGroup f s g port mirror ingress).2 = s) := by
  have h64 : port < 64 := Nat.lt_of_lt_of_le hport (by cases f <;> decide)
  have hctrl := (h.used g hg _ hdest).1
  -- writing the destination again changes nothing
  have hsame : s.writeCtrl f g (ctrlValue f mirror.toLocalPort) = s := by
    unfold Priv.writeCtrl
    rw [← hctrl, Priv.ctrl, Function.update_eq_self]
  have hports : Function.update s.mirrorGroupPorts g (mirror.toLocalPort : Int) =
      s.mirrorGroupPorts := by
    rw [← hdest, Function.update_eq_self]
  rw [addToGroup_eq f s g port mirror ingress h64, hsame, hports]
  split
  · exact ⟨h, fun _ => rfl⟩
  · refine ⟨?_, fun hne => absurd rfl hne⟩
    constructor
    · intro k hk dest hkdest
      obtain ⟨hkctrl, d, p, hsource⟩ := h.used k hk dest hkdest
      refine ⟨(ctrl_writeMask hg hk ingress _ _).trans hkctrl, d, p, ?_⟩
      -- no source is lost
      show ((s.writeMask f ingress g 0#64 (bitUll port)).mask f d k).getLsbD p = true
      rw [mask_set hg hk ingress d hport]
      split
      · rw [BitVec.getLsbD_or, show (s.mask f d k).getLsbD p = true from hsource, Bool.true_or]
      · exact hsource
    · intro k hk hneg
      obtain ⟨hkctrl, hmask⟩ := h.free k hk hneg
      refine ⟨(ctrl_writeMask hg hk ingress _ _).trans hkctrl, fun d => ?_⟩
      have hkg : k ≠ g := by
        rintro rfl
        rw [show ({ s.writeMask f ingress k 0#64 (bitUll port) with
          mirrorGroupPorts := s.mirrorGroupPorts } : Priv).mirrorGroupPorts k =
            s.mirrorGroupPorts k from rfl, hdest] at hneg
        omega
      show (s.writeMask f ingress g 0#64 (bitUll port)).mask f d k = 0#64
      rw [mask_set hg hk ingress d hport, if_neg fun h => hkg h.2, hmask d]
    · exact h.unique

/-- An add to a free group takes the group. -/
theorem GroupsOk.addToGroup_free (h : GroupsOk f s) {g port : Nat} {mirror : MirrorTcEntry}
    (hg : g < 4) (hport : port < f.width) (hneg : s.mirrorGroupPorts g < 0)
    (hnone : ∀ k < 4, s.mirrorGroupPorts k ≠ mirror.toLocalPort) (ingress : Bool) :
    GroupsOk f (addToGroup f s g port mirror ingress).2 ∧
      ((addToGroup f s g port mirror ingress).1 ≠ none →
        (addToGroup f s g port mirror ingress).2 = s) := by
  have h64 : port < 64 := Nat.lt_of_lt_of_le hport (by cases f <;> decide)
  obtain ⟨-, hempty⟩ := h.free g hg hneg
  -- a free group has no source, so the add cannot be refused
  have hnew : ((s.writeCtrl f g (ctrlValue f mirror.toLocalPort)).mask f ingress g).getLsbD port =
      false := by
    rw [mask_writeCtrl hg hg, hempty, BitVec.getLsbD_zero]
  rw [addToGroup_eq f s g port mirror ingress h64, hnew, if_neg Bool.false_ne_true]
  refine ⟨?_, fun hne => absurd rfl hne⟩
  have hctrl (k : Nat) (hk : k < 4) :
      ((s.writeCtrl f g (ctrlValue f mirror.toLocalPort)).writeMask f ingress g 0#64
        (bitUll port)).ctrl f k =
        if k = g then ctrlValue f mirror.toLocalPort else s.ctrl f k := by
    rw [ctrl_writeMask hg hk, ctrl_writeCtrl]
  have hmask (k : Nat) (hk : k < 4) (d : Bool) :
      ((s.writeCtrl f g (ctrlValue f mirror.toLocalPort)).writeMask f ingress g 0#64
        (bitUll port)).mask f d k =
        if d = ingress ∧ k = g then s.mask f d k ||| bitUll port else s.mask f d k := by
    rw [mask_set hg hk ingress d hport, mask_writeCtrl hg hk]
  constructor
  · intro k hk dest hkdest
    by_cases hkg : k = g
    · subst hkg
      simp only [Function.update_self] at hkdest
      obtain rfl : mirror.toLocalPort = dest := Int.ofNat.inj hkdest
      refine ⟨(hctrl k hk).trans (if_pos rfl), ingress, port, ?_⟩
      show (((s.writeCtrl f k _).writeMask f ingress k 0#64 (bitUll port)).mask f ingress
        k).getLsbD port = true
      rw [hmask k hk ingress, if_pos ⟨rfl, rfl⟩, BitVec.getLsbD_or, getLsbD_bitUll h64]
      simp
    · simp only [Function.update_of_ne hkg] at hkdest
      obtain ⟨hkctrl, d, p, hsource⟩ := h.used k hk dest hkdest
      refine ⟨(hctrl k hk).trans ((if_neg hkg).trans hkctrl), d, p, ?_⟩
      show (((s.writeCtrl f g _).writeMask f ingress g 0#64 (bitUll port)).mask f d
        k).getLsbD p = true
      rw [hmask k hk d, if_neg fun h => hkg h.2]
      exact hsource
  · intro k hk hkneg
    have hkg : k ≠ g := by
      rintro rfl
      simp only [Function.update_self] at hkneg
      omega
    simp only [Function.update_of_ne hkg] at hkneg
    obtain ⟨hkctrl, hkempty⟩ := h.free k hk hkneg
    refine ⟨(hctrl k hk).trans ((if_neg hkg).trans hkctrl), fun d => ?_⟩
    show ((s.writeCtrl f g _).writeMask f ingress g 0#64 (bitUll port)).mask f d k = 0#64
    rw [hmask k hk d, if_neg fun h => hkg h.2, hkempty d]
  -- no other group had the destination
  · intro k hk l hl hpos heq
    simp only at hpos heq
    by_cases hkg : k = g
    · by_cases hlg : l = g
      · rw [hkg, hlg]
      · rw [hkg, Function.update_self, Function.update_of_ne hlg] at heq
        exact absurd heq.symm (hnone l hl)
    · rw [Function.update_of_ne hkg] at hpos heq
      by_cases hlg : l = g
      · rw [hlg, Function.update_self] at heq
        exact absurd heq (hnone k hk)
      · rw [Function.update_of_ne hlg] at heq
        exact h.unique k hk l hl hpos heq

/-- Adds keep the groups in order, and change nothing where they fail. -/
theorem GroupsOk.portMirrorAdd (h : GroupsOk f s) {port : Nat} (hport : port < f.width)
    (mirror : MirrorTcEntry) (ingress : Bool) :
    GroupsOk f (portMirrorAdd f s port mirror ingress).2 ∧
      ((portMirrorAdd f s port mirror ingress).1 ≠ none →
        (portMirrorAdd f s port mirror ingress).2 = s) := by
  unfold Mirror.portMirrorAdd
  split
  -- a group of this destination is joined, otherwise a free one is taken
  · next g hfind =>
    obtain ⟨hg, hdest⟩ := findGroup_some hfind
    exact h.addToGroup_used hg hport (of_decide_eq_true hdest) ingress
  · next hnone =>
    split
    · next g hfind =>
      obtain ⟨hg, hneg⟩ := findGroup_some hfind
      exact h.addToGroup_free hg hport (of_decide_eq_true hneg)
        (fun k hk => of_decide_eq_false (findGroup_none hnone hk)) ingress
    · exact ⟨h, fun _ => rfl⟩

/-! ### Removals -/

/-- The state in which a removal looks whether the group has a source left. -/
def Priv.cleared (s : Priv) (f : Family) (g port : Nat) (mirror : MirrorTcEntry) : Priv :=
  s.writeMask f mirror.ingress g (bitUll port) 0#64

/-- The words that a removal looks at are zero. -/
def Priv.LooksEmpty (s : Priv) (f : Family) (g : Nat) : Prop :=
  ∀ d, s.regs (maskReg f d g) = 0#32

instance (s : Priv) (f : Family) (g : Nat) : Decidable (s.LooksEmpty f g) :=
  inferInstanceAs (Decidable (∀ d, s.regs (maskReg f d g) = 0#32))

/-- Taking a port out of a group clears a group that looks empty. -/
private theorem portMirrorDel_eq {g port : Nat} {mirror : MirrorTcEntry}
    (hfind : findGroup s (fun dest => dest = mirror.toLocalPort) = some g) :
    portMirrorDel f s port mirror =
      if (s.cleared f g port mirror).LooksEmpty f g then
        { (s.cleared f g port mirror).writeCtrl f g 0#32 with
          mirrorGroupPorts := Function.update s.mirrorGroupPorts g (-1) }
      else s.cleared f g port mirror := by
  -- the driver looks at the first words of the masks only
  have hlook (regs : Regs) : ¬(regs (spmReg f g) ≠ 0#32 ∨ regs (dpmReg f g) ≠ 0#32) ↔
      ({ s with regs := regs } : Priv).LooksEmpty f g := by
    unfold Priv.LooksEmpty maskReg
    simp [and_comm]
  unfold portMirrorDel
  rw [hfind]
  simp only [hlook]
  cases hdir : mirror.ingress with
  | true =>
    simp only [Priv.cleared, Priv.writeMask, Priv.writeCtrl, hdir, maskReg, if_true]
  | false =>
    simp only [Priv.cleared, Priv.writeMask, Priv.writeCtrl, hdir, maskReg, Bool.false_eq_true,
      if_false]

section Removal

variable {g port : Nat} {mirror : MirrorTcEntry}

/-- The ports that are left. -/
private theorem source_cleared (hg : g < 4) (hport : port < 64) {k : Nat} (hk : k < 4) (d : Bool)
    (p : Nat) :
    (s.cleared f g port mirror).Source f k d p ↔
      s.Source f k d p ∧ ¬(k = g ∧ d = mirror.ingress ∧ p = port) := by
  unfold Priv.Source Priv.cleared
  rw [mask_clear hg hk]
  by_cases heq : d = mirror.ingress ∧ k = g
  · rw [if_pos heq, BitVec.getLsbD_and, BitVec.getLsbD_not, getLsbD_bitUll hport]
    by_cases hp : p = port
    · simp [hp, heq]
    · by_cases h64 : p < 64
      · simp [hp, h64]
      · simp [hp, BitVec.getLsbD_of_ge (s.mask f d k) p (Nat.le_of_not_lt h64)]
  · have hne : ¬(k = g ∧ d = mirror.ingress ∧ p = port) := fun h => heq ⟨h.2.1, h.1⟩
    simp [heq, hne]

/-- A source that a removal leaves. -/
private theorem source_cleared_self (hg : g < 4) (hport : port < 64) (d : Bool) (p : Nat) :
    (s.cleared f g port mirror).Source f g d p ↔ s.Left f g port mirror d p := by
  rw [source_cleared hg hport hg, Priv.Left]
  simp

/-- A group looks empty if no port of the upper register is left. -/
private theorem looksEmpty_iff (s : Priv) (g : Nat) :
    s.LooksEmpty f g ↔ ∀ d p, 32 * (portWidth f - 1) ≤ p → ¬s.Source f g d p := by
  unfold Priv.LooksEmpty Priv.Source
  refine forall_congr' fun d => ?_
  rw [word_eq_zero_iff (f := f)]
  simp only [Priv.mask, Bool.not_eq_true]

/-- A destination has one group. -/
theorem GroupsOk.eq_of_dest (h : GroupsOk f s) (hg : g < 4)
    (hdest : s.mirrorGroupPorts g = mirror.toLocalPort) {k : Nat} (hk : k < 4) :
    s.mirrorGroupPorts k = mirror.toLocalPort ↔ k = g := by
  constructor
  · intro hkdest
    exact h.unique k hk g hg (by omega) (hkdest.trans hdest.symm)
  · rintro rfl
    exact hdest

/-- A removal that leaves a source that it sees. -/
theorem GroupsOk.cleared (h : GroupsOk f s) (hg : g < 4) (hport : port < 64)
    (hdest : s.mirrorGroupPorts g = mirror.toLocalPort) (hleft : ∃ d p, s.Left f g port mirror d p) :
    GroupsOk f (s.cleared f g port mirror) ∧
      Removes f s port mirror (s.cleared f g port mirror) := by
  have hctrl (k : Nat) (hk : k < 4) : (s.cleared f g port mirror).ctrl f k = s.ctrl f k :=
    ctrl_writeMask hg hk _ _ _
  refine ⟨⟨?_, ?_, h.unique⟩, ⟨?_, fun k hk _ => ⟨rfl, hctrl k hk⟩⟩⟩
  · intro k hk dest hkdest
    obtain ⟨hkctrl, d, p, hsource⟩ := h.used k hk dest hkdest
    refine ⟨(hctrl k hk).trans hkctrl, ?_⟩
    -- the group keeps the sources that are left, the other groups all of theirs
    by_cases hkg : k = g
    · subst hkg
      obtain ⟨d, p, hleft⟩ := hleft
      exact ⟨d, p, (source_cleared_self hg hport d p).mpr hleft⟩
    · exact ⟨d, p, (source_cleared hg hport hk d p).mpr ⟨hsource, fun h => hkg h.1⟩⟩
  · intro k hk hneg
    obtain ⟨hkctrl, hempty⟩ := h.free k hk hneg
    refine ⟨(hctrl k hk).trans hkctrl, fun d => ?_⟩
    rw [Priv.cleared, mask_clear hg hk, hempty d]
    simp
  · intro k hk d p
    rw [source_cleared hg hport hk, h.eq_of_dest hg hdest hk]

/-- A removal that finds no source in the words that it looks at frees the group. -/
theorem GroupsOk.freed (h : GroupsOk f s) (hg : g < 4) (hport : port < 64)
    (hdest : s.mirrorGroupPorts g = mirror.toLocalPort)
    (hleft : ¬∃ d p, s.Left f g port mirror d p) :
    GroupsOk f { (s.cleared f g port mirror).writeCtrl f g 0#32 with
        mirrorGroupPorts := Function.update s.mirrorGroupPorts g (-1) } ∧
      Removes f s port mirror { (s.cleared f g port mirror).writeCtrl f g 0#32 with
        mirrorGroupPorts := Function.update s.mirrorGroupPorts g (-1) } := by
  have hctrl (k : Nat) (hk : k < 4) : ((s.cleared f g port mirror).writeCtrl f g 0#32).ctrl f k =
      if k = g then 0#32 else s.ctrl f k := by
    rw [ctrl_writeCtrl, Priv.cleared, ctrl_writeMask hg hk]
  have hsource (k : Nat) (hk : k < 4) (d : Bool) (p : Nat) :
      ((s.cleared f g port mirror).writeCtrl f g 0#32).Source f k d p ↔
        s.Source f k d p ∧ ¬(k = g ∧ d = mirror.ingress ∧ p = port) := by
    rw [← source_cleared hg hport hk, Priv.Source, mask_writeCtrl hg hk, Priv.Source]
  -- the only source left in the group is the one that is taken out
  have hnone (d : Bool) (p : Nat) :
      ¬((s.cleared f g port mirror).writeCtrl f g 0#32).Source f g d p := by
    intro hp
    rw [hsource g hg] at hp
    exact hleft ⟨d, p, hp.1, fun h => hp.2 ⟨rfl, h.1, h.2⟩⟩
  refine ⟨⟨?_, ?_, ?_⟩, ⟨?_, ?_⟩⟩
  -- no source is left in it, so the group may go
  · intro k hk dest hkdest
    have hkg : k ≠ g := by
      rintro rfl
      simp only [Function.update_self] at hkdest
      omega
    simp only [Function.update_of_ne hkg] at hkdest
    obtain ⟨hkctrl, d, p, hp⟩ := h.used k hk dest hkdest
    exact ⟨(hctrl k hk).trans ((if_neg hkg).trans hkctrl), d, p,
      (hsource k hk d p).mpr ⟨hp, fun h => hkg h.1⟩⟩
  -- the freed group has no source and no control word
  · intro k hk hneg
    by_cases hkg : k = g
    · subst hkg
      refine ⟨(hctrl k hk).trans (if_pos rfl), fun d => ?_⟩
      apply BitVec.eq_of_getLsbD_eq
      intro p _
      rw [BitVec.getLsbD_zero]
      exact Bool.eq_false_iff.mpr (hnone d p)
    · simp only [Function.update_of_ne hkg] at hneg
      obtain ⟨hkctrl, hempty⟩ := h.free k hk hneg
      refine ⟨(hctrl k hk).trans ((if_neg hkg).trans hkctrl), fun d => ?_⟩
      show ((s.cleared f g port mirror).writeCtrl f g 0#32).mask f d k = 0#64
      rw [mask_writeCtrl hg hk, Priv.cleared, mask_clear hg hk, if_neg fun h => hkg h.2, hempty d]
  · intro k hk l hl hpos heq
    simp only at hpos heq
    by_cases hkg : k = g
    · rw [hkg, Function.update_self] at hpos
      omega
    · rw [Function.update_of_ne hkg] at hpos heq
      by_cases hlg : l = g
      · rw [hlg, Function.update_self] at heq
        omega
      · rw [Function.update_of_ne hlg] at heq
        exact h.unique k hk l hl hpos heq
  · intro k hk d p
    rw [h.eq_of_dest hg hdest hk]
    exact hsource k hk d p
  -- a group that has a source is not the freed one
  · rintro k hk ⟨d, p, hp⟩
    have hkg : k ≠ g := by
      rintro rfl
      exact hnone d p hp
    exact ⟨Function.update_of_ne hkg .., (hctrl k hk).trans (if_neg hkg)⟩

end Removal

/-- A removal for a destination that no group has changes nothing. -/
private theorem portMirrorDel_none {port : Nat} {mirror : MirrorTcEntry}
    (hfind : findGroup s (fun dest => dest = mirror.toLocalPort) = none) :
    portMirrorDel f s port mirror = s := by
  unfold portMirrorDel
  rw [hfind]

/-- A removal keeps the groups in order exactly if it is harmless. -/
theorem GroupsOk.portMirrorDel_iff (h : GroupsOk f s) {port : Nat} (hport : port < f.width)
    (mirror : MirrorTcEntry) :
    GroupsOk f (portMirrorDel f s port mirror) ∧
        Removes f s port mirror (portMirrorDel f s port mirror) ↔
      (Call.del port mirror).Harmless f s := by
  have h64 : port < 64 := Nat.lt_of_lt_of_le hport (by cases f <;> decide)
  cases hfind : findGroup s (fun dest => dest = mirror.toLocalPort) with
  | none =>
    have hnone (g : Nat) (hg : g < 4) : s.mirrorGroupPorts g ≠ mirror.toLocalPort :=
      of_decide_eq_false (findGroup_none hfind hg)
    rw [portMirrorDel_none hfind]
    refine iff_of_true ⟨h, ⟨fun g hg d p => ?_, fun g _ _ => ⟨rfl, rfl⟩⟩⟩ ?_
    · simp [hnone g hg]
    · intro g hg hdest
      exact absurd hdest (hnone g hg)
  | some g =>
    obtain ⟨hg, hdest⟩ := findGroup_some hfind
    replace hdest : s.mirrorGroupPorts g = mirror.toLocalPort := of_decide_eq_true hdest
    rw [portMirrorDel_eq hfind]
    -- the words are empty if no source is left in the part of the masks that they hold
    have hempty : (s.cleared f g port mirror).LooksEmpty f g ↔
        ∀ d p, 32 * (portWidth f - 1) ≤ p → ¬s.Left f g port mirror d p := by
      rw [looksEmpty_iff]
      simp only [source_cleared_self hg h64]
    have hharmless : (Call.del port mirror).Harmless f s ↔
        ((∃ d p, s.Left f g port mirror d p) →
          ∃ d p, s.Left f g port mirror d p ∧ 32 * (portWidth f - 1) ≤ p) := by
      constructor
      · intro hok
        exact hok g hg hdest
      · intro hok k hk hkdest
        obtain rfl := (h.eq_of_dest hg hdest hk).mp hkdest
        exact hok
    rw [hharmless]
    -- sources that are left, but none in the word that is read, are the harmful case
    by_cases hleft : ∃ d p, s.Left f g port mirror d p
    · by_cases hseen : ∃ d p, s.Left f g port mirror d p ∧ 32 * (portWidth f - 1) ≤ p
      · obtain ⟨d, p, hp, hle⟩ := hseen
        rw [if_neg fun hlook => hempty.mp hlook d p hle hp]
        exact iff_of_true (h.cleared hg h64 hdest hleft) fun _ => ⟨d, p, hp, hle⟩
      · have hlook := hempty.mpr fun d p hle hp => hseen ⟨d, p, hp, hle⟩
        rw [if_pos hlook]
        refine iff_of_false (fun hgood => ?_) fun hok => hseen (hok hleft)
        -- the group is freed, although it has a source
        obtain ⟨d, p, hp⟩ := hleft
        have hsource : ({ (s.cleared f g port mirror).writeCtrl f g 0#32 with
            mirrorGroupPorts := Function.update s.mirrorGroupPorts g (-1) } : Priv).Source f g d
              p := by
          show (((s.cleared f g port mirror).writeCtrl f g 0#32).mask f d g).getLsbD p = true
          rw [mask_writeCtrl hg hg]
          exact (source_cleared_self hg h64 d p).mpr hp
        have hports := (hgood.2.enabled g hg ⟨d, p, hsource⟩).1
        simp only [Function.update_self, hdest] at hports
        omega
    · rw [if_pos (hempty.mpr fun d p _ hp => hleft ⟨d, p, hp⟩)]
      exact iff_of_true (h.freed hg h64 hdest hleft) fun hyes => absurd hyes hleft

/-! ### Runs -/

/-- What holds after a call. -/
def Good (f : Family) (s : Priv) (q : Call) : Prop :=
  GroupsOk f (call f s q).2 ∧ Keeps f s q (call f s q)

/-- A request does what it is for exactly if it is harmless. -/
theorem GroupsOk.good_iff (h : GroupsOk f s) (hq : q.port ≤ f.cpuPort) :
    Good f s q ↔ q.Harmless f s := by
  have hport : q.port < f.width := Nat.lt_of_le_of_lt hq f.cpuPort_lt_width
  cases q with
  | add port mirror => exact iff_of_true (h.portMirrorAdd hport mirror mirror.ingress) trivial
  | del port mirror => exact h.portMirrorDel_iff hport mirror

/-- The state after a call. -/
def step (f : Family) (s : Priv) (q : Call) : Priv := (call f s q).2

/-- The mirroring groups are in order after every call of a run exactly if all its calls are
    harmless. -/
theorem run_groupsOk_iff (f : Family) (s : Priv) (calls : List Call) (h : GroupsOk f s)
    (hcalls : ∀ q ∈ calls, q.port ≤ f.cpuPort) :
    Along (step f) (fun s q _ => Good f s q) s calls ↔
      Along (step f) (fun s q _ => q.Harmless f s) s calls := by
  have hkeep : ∀ s q, GroupsOk f s → q.port ≤ f.cpuPort → q.Harmless f s →
      GroupsOk f (step f s q) ∧ Good f s q := by
    intro s q hinv hq hok
    have hgood := (hinv.good_iff hq).mpr hok
    exact ⟨hgood.1, hgood⟩
  have hallowed : Along (step f) (fun _ q _ => q.port ≤ f.cpuPort) s calls :=
    Along.of_forall hcalls
  have hbreak : ∀ s q, GroupsOk f s → q.port ≤ f.cpuPort → Good f s q → q.Harmless f s :=
    fun s q hinv hq => (hinv.good_iff hq).mp
  exact @Along.iff_of_invariant _ _ _ _ _ _ (GroupsOk f) _ _ hkeep hbreak h hallowed

/-- No group has a destination, and the registers are clear. -/
def samplePriv : Priv where
  mirrorGroupPorts _ := -1
  regs _ := 0#32

/-- Without groups all are right. -/
theorem samplePriv_groupsOk (f : Family) : GroupsOk f samplePriv where
  used g _ dest hdest := by
    have hneg : (-1 : Int) = dest := hdest
    omega
  free g _ _ := by
    refine ⟨rfl, fun d => ?_⟩
    cases f <;> simp [Priv.mask, Family.getPortRegBe, Lag.rtl839xGetPortRegBe, getPortReg,
      samplePriv]
  unique g _ h _ hpos := by
    have hneg : (0 : Int) ≤ -1 := hpos
    omega

/-- On an RTL8380 two ports are mirrored to port 3, and one of them is not any more. -/
theorem run_groupsOk_sample :
    Along (step .rtl8380) (fun s q _ => Good .rtl8380 s q) samplePriv
      [.add 1 ⟨3, true⟩, .add 2 ⟨3, true⟩, .del 1 ⟨3, true⟩] := by
  refine (run_groupsOk_iff .rtl8380 samplePriv _ (samplePriv_groupsOk _) fun q hq => ?_).mpr ?_
  · fin_cases hq <;> decide
  · refine ⟨trivial, trivial, fun g _ _ hleft => ?_, trivial⟩
    obtain ⟨d, p, hp⟩ := hleft
    exact ⟨d, p, hp, Nat.zero_le p⟩

/-- On an RTL8390 the group of ports 1 and 2 is freed when port 1 is removed. -/
theorem run_groups_freed :
    GroupsOk .rtl8390 samplePriv ∧
    (∀ q ∈ [Call.add 1 ⟨3, true⟩, .add 2 ⟨3, true⟩, .del 1 ⟨3, true⟩],
      q.port ≤ Family.cpuPort .rtl8390) ∧
    ¬Along (step .rtl8390) (fun s q _ => Good .rtl8390 s q) samplePriv
      [.add 1 ⟨3, true⟩, .add 2 ⟨3, true⟩, .del 1 ⟨3, true⟩] := by
  refine ⟨samplePriv_groupsOk _, fun q hq => ?_, fun hgood => ?_⟩
  · fin_cases hq <;> decide
  · -- port 2 is still a source, and its group has no destination any more
    have henabled := hgood.2.2.1.2.enabled 0 (by decide) ⟨true, 2, by decide⟩
    revert henabled
    decide

end HandsomeMod.Native.Rtl83xx.Mirror
