import HandsomeMod.Native.Rtl83xxLag

/-!
# VLAN filters of the RTL83xx

`rtl83xx_vlan_filtering` of `dsa.c`, for the four switch families. The registers of the filters are
those of `rtl838x.h`: two bits for each port on ingress, one bit on egress.
-/

namespace HandsomeMod.Native.Rtl83xx.VlanFilter

open Lag (Family Regs)

/-! ### Registers -/

/-- `RTL838X_VLAN_PORT_IGR_FLTR` and its siblings: the register of a port. -/
def vlanPortIgrFltr (f : Family) (port : Nat) : Nat :=
  match f with
  | .rtl8380 => 0x3a7c + ((port >>> 4) <<< 2)
  | .rtl8390 => 0x27b4 + ((port >>> 4) <<< 2)
  | .rtl9300 => 0x83c0 + ((port >>> 4) <<< 2)
  | .rtl9310 => 0x96b4 + ((port >>> 4) <<< 2)

/-- `RTL838X_VLAN_PORT_EGR_FLTR` and its siblings: two families have one register. -/
def vlanPortEgrFltr (f : Family) (port : Nat) : Nat :=
  match f with
  | .rtl8380 => 0x3a84
  | .rtl8390 => 0x27c4 + ((port >>> 5) <<< 2)
  | .rtl9300 => 0x83c8
  | .rtl9310 => 0x96c4 + ((port >>> 5) <<< 2)

/-- `priv->r->vlan_port_igr_filter` -/
def vlanPortIgrFilter (f : Family) : Nat := vlanPortIgrFltr f 0

/-- `priv->r->vlan_port_egr_filter` -/
def vlanPortEgrFilter (f : Family) : Nat := vlanPortEgrFltr f 0

/-- `sw_w32_mask` of the register at `reg` -/
def maskReg (clear set : U32) (reg : Nat) (r : Regs) : Regs :=
  Function.update r reg (swW32Mask clear set (r reg))

/-! ### `rtl83xx_vlan_filtering` -/

/-- A call of `rtl83xx_vlan_filtering`. -/
structure Call where
  port : Nat
  vlanFiltering : Bool

/-- `rtl83xx_vlan_filtering` -/
def vlanFiltering (f : Family) (r : Regs) (q : Call) : Regs :=
  if q.vlanFiltering then
    -- 0: always forward, 1: drop packet, 2: trap packet to CPU port
    let r := if q.port ≠ f.cpuPort then
        maskReg (0b10#32 <<< ((q.port % 16) <<< 1)) (0b01#32 <<< ((q.port % 16) <<< 1))
          (vlanPortIgrFilter f + ((q.port >>> 5) <<< 2)) r
      else r
    maskReg 0#32 (bit32 (q.port % 32)) (vlanPortEgrFilter f + ((q.port >>> 4) <<< 2)) r
  else
    let r := if q.port ≠ f.cpuPort then
        maskReg (0b11#32 <<< ((q.port % 16) <<< 1)) 0#32
          (vlanPortIgrFilter f + ((q.port >>> 5) <<< 2)) r
      else r
    maskReg (bit32 (q.port % 32)) 0#32 (vlanPortEgrFilter f + ((q.port >>> 4) <<< 2)) r

end HandsomeMod.Native.Rtl83xx.VlanFilter
