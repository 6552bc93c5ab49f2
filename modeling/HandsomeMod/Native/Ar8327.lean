import HandsomeMod.Native.Ar8216

/-!
# VLANs of the AR8327

Embeds `ar8327_sw_get_ports`, `ar8327_sw_set_ports` and `ar8327_vtu_load_vlan` of
`drivers/net/phy/ar8327.c`. The other operations are those of the AR8216 family.
-/

namespace HandsomeMod.Native.Ar8327

open Swconfig
open Ar8216 (bit)

/-- The port mask of a VLAN has a bit for each port. -/
private theorem ports_le : 7 ≤ 8 := by decide

/-- AR8327_NUM_PORTS and AR83X7_MAX_VLANS -/
def dev : Ar8216.Dev := { ports := 7, vlans := 4096, ports_le := ports_le }

/-- The fields of `struct ar8xxx_priv` that are about VLANs -/
structure Priv extends Ar8216.Priv where
  vlan : Bool

/-- `ar8xxx_sw_set_vlan` -/
def swSetVlan (s : Priv) (i : Int) : Priv := { s with vlan := decide (i ≠ 0) }

/-- `ar8xxx_sw_set_pvid` -/
def swSetPvid (s : Priv) (port : Nat) (vlan : Int) : Result Priv :=
  let (priv, result) := Ar8216.swSetPvid dev s.toPriv port vlan
  ({ s with toPriv := priv }, result)

/-- `ar8xxx_sw_reset_switch` -/
def swResetSwitch (s : Priv) : Priv :=
  { toPriv := Ar8216.swResetSwitch dev s.toPriv, vlan := false }

/-- A turn of the loop of `ar8327_sw_set_ports`. -/
def swSetPort (vlan : Nat) (s : Priv) (p : SwitchPort) : Priv :=
  let s : Priv :=
    if p.tagged then
      if vlan = (s.pvid p.id).toNat then { s with vlanTagged := s.vlanTagged ||| bit p.id } else s
    else
      { s with
        vlanTagged := s.vlanTagged &&& ~~~bit p.id
        pvid := Function.update s.pvid p.id (UInt16.ofNat vlan) }
  { s with vlanTable := Function.update s.vlanTable vlan (s.vlanTable vlan ||| bit p.id) }

/-- `ar8327_sw_set_ports` -/
def swSetPorts (s : Priv) (vlan : Nat) (ports : List SwitchPort) : Result Priv :=
  (ports.foldl (swSetPort vlan) { s with vlanTable := Function.update s.vlanTable vlan 0 }, .ok ())

/-- `ar8327_sw_get_ports` -/
def swGetPorts (s : Priv) (vlan : Nat) : List SwitchPort :=
  (List.range dev.ports).filterMap fun i =>
    if s.vlanTable vlan &&& bit i = 0 then none
    else some { id := i, tagged := decide (s.vlanTagged &&& bit i ≠ 0 ∨ (s.pvid i).toNat ≠ vlan) }

/-- The operations of `ar8327_sw_ops` -/
def switchDev : SwitchDev Priv :=
  { ports := dev.ports
    vlans := dev.vlans
    setVlanPorts := some swSetPorts
    setPortPvid := some swSetPvid }

/-! ### The VLAN translation unit -/

/-- AR8327_VTU_FUNC0_EG_MODE -/
inductive EgMode where
  | keep
  | untag
  | tag
  | not
  deriving Repr, DecidableEq

def EgMode.toBitVec : EgMode → BitVec 32
  | .keep => 0
  | .untag => 1
  | .tag => 2
  | .not => 3

/-- The egress mode of a port in `ar8327_vtu_load_vlan` -/
def egMode (s : Priv) (vid : UInt16) (portMask : BitVec 8) (i : Nat) : EgMode :=
  if portMask &&& bit i = 0 then .not
  else if s.vlan = false then .keep
  else if s.vlanTagged &&& bit i ≠ 0 ∨ s.vlanId (s.pvid i).toNat ≠ vid then .tag
  else .untag

/-- AR8327_VTU_FUNC0_EG_MODE_S -/
def egModeShift (i : Nat) : Nat := 4 + i * 2

/-- `ar8327_vtu_load_vlan`: the operation and the value that are given to `ar8327_vtu_op`. -/
def vtuLoadVlan (s : Priv) (vid : UInt16) (portMask : BitVec 8) : BitVec 32 × BitVec 32 :=
  -- AR8327_VTU_FUNC1_OP_LOAD
  (2 ||| BitVec.ofNat 32 vid.toNat <<< 16,
    -- AR8327_VTU_FUNC0_VALID | AR8327_VTU_FUNC0_IVL
    (List.range dev.ports).foldl
      (fun val i => val ||| (egMode s vid portMask i).toBitVec <<< egModeShift i)
      (BitVec.twoPow 32 20 ||| BitVec.twoPow 32 19))

end HandsomeMod.Native.Ar8327
