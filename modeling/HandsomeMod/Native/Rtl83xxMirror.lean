import HandsomeMod.Native.Rtl83xxLag

/-!
# Mirroring groups of the RTL83xx

`rtl83xx_port_mirror_add` and `rtl83xx_port_mirror_del` of `dsa.c`, for the four switch families
with their port register accessors.
-/

namespace HandsomeMod.Native.Rtl83xx.Mirror

open Lag (Family Regs)

/-! ### Registers -/

/-- `mir_ctrl` -/
def mirCtrl : Family → Nat
  | .rtl8380 => 0x5d00
  | .rtl8390 => 0x2500
  | .rtl9300 => 0xa2a0
  | .rtl9310 => 0xaf00

/-- `mir_dpm` -/
def mirDpm : Family → Nat
  | .rtl8380 => 0x5d20
  | .rtl8390 => 0x2530
  | .rtl9300 => 0xa2c0
  | .rtl9310 => 0xaf30

/-- `mir_spm` -/
def mirSpm : Family → Nat
  | .rtl8380 => 0x5d10
  | .rtl8390 => 0x2510
  | .rtl9300 => 0xa2b0
  | .rtl9310 => 0xaf10

/-- `port_width`, the words of a port mask -/
def portWidth : Family → Nat
  | .rtl8380 => 1
  | .rtl8390 => 2
  | .rtl9300 => 1
  | .rtl9310 => 2

/-- `ctrl_reg` of a group -/
def ctrlReg (f : Family) (group : Nat) : Nat := mirCtrl f + group * 4

/-- `dpm_reg` of a group -/
def dpmReg (f : Family) (group : Nat) : Nat := mirDpm f + group * 4 * portWidth f

/-- `spm_reg` of a group -/
def spmReg (f : Family) (group : Nat) : Nat := mirSpm f + group * 4 * portWidth f

/-! ### State -/

/-- `mirror_group_ports` and the registers. -/
structure Priv where
  mirrorGroupPorts : Nat → Int
  regs : Regs

/-- `struct dsa_mall_mirror_tc_entry` -/
structure MirrorTcEntry where
  toLocalPort : Nat
  ingress : Bool

inductive Errno where
  | enospc
  | eexist
  deriving DecidableEq

/-- The first of the four groups whose entry of `mirror_group_ports` passes the test. -/
def findGroup (s : Priv) (test : Int → Bool) : Option Nat :=
  (List.range 4).find? fun group => test (s.mirrorGroupPorts group)

/-- The control register of a group that mirrors to a port. -/
def ctrlValue (f : Family) (toLocalPort : Nat) : U32 :=
  -- mirroring to a port across VLANs is bit 11 of the RTL838x
  if f = .rtl8380 then (1#32 <<< 11) ||| (BitVec.ofNat 32 toLocalPort <<< 4) ||| 1#32
  else (BitVec.ofNat 32 toLocalPort <<< 4) ||| 1#32

/-! ### Calls -/

/-- `rtl83xx_port_mirror_add`, behind the search for the group. -/
def addToGroup (f : Family) (s : Priv) (group port : Nat) (mirror : MirrorTcEntry)
    (ingress : Bool) : Option Errno × Priv :=
  let s := { s with
    regs := Function.update s.regs (ctrlReg f group) (ctrlValue f mirror.toLocalPort) }
  if ingress ∧ f.getPortRegBe (spmReg f group) s.regs &&& bitUll port ≠ 0#64 then (some .eexist, s)
  else if ¬ingress ∧ f.getPortRegBe (dpmReg f group) s.regs &&& bitUll port ≠ 0#64 then
    (some .eexist, s)
  else
    let regs := if ingress then f.maskPortRegBe 0#64 (bitUll port) (spmReg f group) s.regs
      else f.maskPortRegBe 0#64 (bitUll port) (dpmReg f group) s.regs
    (none, { s with
      regs := regs
      mirrorGroupPorts := Function.update s.mirrorGroupPorts group mirror.toLocalPort })

/-- `rtl83xx_port_mirror_add`: the error, if any, and the state. -/
def portMirrorAdd (f : Family) (s : Priv) (port : Nat) (mirror : MirrorTcEntry) (ingress : Bool) :
    Option Errno × Priv :=
  match findGroup s fun dest => dest = mirror.toLocalPort with
  | some group => addToGroup f s group port mirror ingress
  | none =>
    match findGroup s fun dest => dest < 0 with
    | some group => addToGroup f s group port mirror ingress
    | none => (some .enospc, s)

/-- `rtl83xx_port_mirror_del` -/
def portMirrorDel (f : Family) (s : Priv) (port : Nat) (mirror : MirrorTcEntry) : Priv :=
  match findGroup s fun dest => dest = mirror.toLocalPort with
  | none => s
  | some group =>
    let regs := if mirror.ingress then f.maskPortRegBe (bitUll port) 0#64 (spmReg f group) s.regs
      else f.maskPortRegBe (bitUll port) 0#64 (dpmReg f group) s.regs
    -- one word of each mask, also where a mask has two
    if ¬(regs (spmReg f group) ≠ 0#32 ∨ regs (dpmReg f group) ≠ 0#32) then
      { mirrorGroupPorts := Function.update s.mirrorGroupPorts group (-1)
        regs := Function.update regs (ctrlReg f group) 0#32 }
    else { s with regs := regs }

/-- A call for a source port. The DSA core calls add with the direction of the entry. -/
inductive Call where
  | add (port : Nat) (mirror : MirrorTcEntry)
  | del (port : Nat) (mirror : MirrorTcEntry)

def Call.port : Call → Nat
  | .add port _ => port
  | .del port _ => port

/-- A call: the error that an add returns, and the state. -/
def call (f : Family) (s : Priv) : Call → Option Errno × Priv
  | .add port mirror => portMirrorAdd f s port mirror mirror.ingress
  | .del port mirror => (none, portMirrorDel f s port mirror)

end HandsomeMod.Native.Rtl83xx.Mirror
