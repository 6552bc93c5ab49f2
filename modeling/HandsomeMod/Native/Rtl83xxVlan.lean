import HandsomeMod.Native.Rtl83xx

/-!
# VLAN tables of the RTL838x

`rtl83xx_vlan_add` and `rtl83xx_vlan_del` of `dsa.c` over the two VLAN tables of `rtl838x.c`:
table 0 has the members of each VLAN and its profile, table 1 the ports that send untagged.
-/

namespace HandsomeMod.Native.Rtl83xx.Vlan

/-! ### Table commands -/

/-- A table that is accessed through data registers and a control register. -/
structure TableReg (α : Type) where
  entries : BitVec 12 → α
  data : α

/-- `rtl838x_exec_tbl0_cmd` and `rtl838x_exec_tbl1_cmd`: bit 15 executes, bit 14 reads. -/
def TableReg.exec {α : Type} (r : TableReg α) (cmd : U32) : TableReg α :=
  let idx := cmd.setWidth 12
  if !cmd.getLsbD 15 then r
  else if cmd.getLsbD 14 then { r with data := r.entries idx }
  else { r with entries := Function.update r.entries idx r.data }

/-- `struct rtl838x_vlan_info` -/
structure VlanInfo where
  untaggedPorts : U64
  taggedPorts : U64
  profileId : BitVec 8
  hashMcFid : Bool
  hashUcFid : Bool
  fid : BitVec 8

/-- The VLAN tables, the registers `vlan_port_pb` and the `pvid` of each port. -/
structure Priv where
  tbl0 : TableReg (U32 × U32)
  tbl1 : TableReg U32
  vlanPortPb : Nat → U32
  pvid : Nat → BitVec 16

/-- `rtl838x_vlan_tables_read` -/
def vlanTablesRead (s : Priv) (vlan : U32) : VlanInfo × Priv :=
  let cmd := bit32 15 -- Execute cmd
    ||| bit32 14 -- Read
    ||| (0#32 <<< 12) -- Table type 0b00
    ||| (vlan &&& 0xfff#32)
  let s := { s with tbl0 := s.tbl0.exec cmd, tbl1 := s.tbl1.exec cmd }
  let v := s.tbl0.data.2
  ({ taggedPorts := s.tbl0.data.1.setWidth 64
     profileId := (v &&& 0x7#32).setWidth 8
     hashMcFid := v &&& 0x8#32 != 0#32
     hashUcFid := v &&& 0x10#32 != 0#32
     fid := ((v >>> 5) &&& 0x3f#32).setWidth 8
     untaggedPorts := s.tbl1.data.setWidth 64 }, s)

/-- `rtl838x_vlan_set_tagged` -/
def vlanSetTagged (s : Priv) (vlan : U32) (info : VlanInfo) : Priv :=
  let cmd := bit32 15 -- Execute cmd
    ||| (0#32 <<< 14) -- Write
    ||| (0#32 <<< 12) -- Table type 0b00
    ||| (vlan &&& 0xfff#32)
  let v := info.profileId.setWidth 32 ||| (if info.hashMcFid then 0x8#32 else 0#32) |||
    (if info.hashUcFid then 0x10#32 else 0#32) ||| (info.fid.setWidth 32 <<< 5)
  { s with tbl0 := { s.tbl0 with data := (info.taggedPorts.setWidth 32, v) }.exec cmd }

/-- `rtl838x_vlan_set_untagged` -/
def vlanSetUntagged (s : Priv) (vlan : U32) (portmask : U64) : Priv :=
  let cmd := bit32 15 -- Execute cmd
    ||| (0#32 <<< 14) -- Write
    ||| (0#32 <<< 12) -- Table type 0b00
    ||| (vlan &&& 0xfff#32)
  let data := (portmask &&& 0x1fffffff#64).setWidth 32
  { s with tbl1 := { s.tbl1 with data := data }.exec cmd }

/-! ### VLANs of a port -/

/-- `struct switchdev_obj_port_vlan`, with `BRIDGE_VLAN_INFO_PVID` and
    `BRIDGE_VLAN_INFO_UNTAGGED` of its flags -/
structure PortVlan where
  vidBegin : BitVec 16
  vidEnd : BitVec 16
  pvid : Bool
  untagged : Bool

/-- The values of `v` in `for (v = vid_begin; v <= vid_end; v++)`. -/
def PortVlan.vids (vlan : PortVlan) : List Nat :=
  List.range' vlan.vidBegin.toNat (vlan.vidEnd.toNat + 1 - vlan.vidBegin.toNat)

/-- One turn of the loop over the PVIDs in `rtl83xx_vlan_add`. -/
def setPvid (port : Nat) (vlan : PortVlan) (s : Priv) (v : Nat) : Priv :=
  if v = 0 then s
  else
    -- Set both inner and outer PVID of the port
    let pb := (BitVec.ofNat 32 v <<< 16) ||| (BitVec.ofNat 32 v <<< 2)
    { s with
      vlanPortPb := Function.update s.vlanPortPb port pb
      pvid := Function.update s.pvid port vlan.vidEnd }

/-- The changes to `info` in `rtl83xx_vlan_add`. -/
def addInfo (port : Nat) (vlan : PortVlan) (info : VlanInfo) : VlanInfo :=
  -- new VLAN?
  let info := if info.taggedPorts = 0#64 then
      { info with fid := 0#8, hashMcFid := false, hashUcFid := false, profileId := 0#8 }
    else info
  -- sanitize untagged_ports - must be a subset
  let info := if info.untaggedPorts &&& ~~~info.taggedPorts ≠ 0#64 then
      { info with untaggedPorts := 0#64 }
    else info
  let info := { info with taggedPorts := info.taggedPorts ||| bitUll port }
  if vlan.untagged then { info with untaggedPorts := info.untaggedPorts ||| bitUll port }
  else info

/-- One turn of the loop over the VLANs in `rtl83xx_vlan_add`. -/
def addVid (port : Nat) (vlan : PortVlan) (s : Priv) (v : Nat) : Priv :=
  if v = 0 then s
  else
    -- Get port memberships of this vlan
    let (info, s) := vlanTablesRead s (BitVec.ofNat 32 v)
    let info := addInfo port vlan info
    let s := vlanSetUntagged s (BitVec.ofNat 32 v) info.untaggedPorts
    vlanSetTagged s (BitVec.ofNat 32 v) info

/-- `rtl83xx_vlan_add` -/
def vlanAdd (s : Priv) (port : Nat) (vlan : PortVlan) : Priv :=
  if 4095 < vlan.vidBegin.toNat ∨ 4095 < vlan.vidEnd.toNat then s
  else
    let s := if vlan.pvid then vlan.vids.foldl (setPvid port vlan) s else s
    vlan.vids.foldl (addVid port vlan) s

/-- The changes to `info` in `rtl83xx_vlan_del`. -/
def delInfo (port v : Nat) (info : VlanInfo) : VlanInfo :=
  -- remove port from both tables
  let info := { info with untaggedPorts := info.untaggedPorts &&& ~~~bitUll port }
  -- always leave vid 1
  if v ≠ 1 then { info with taggedPorts := info.taggedPorts &&& ~~~bitUll port } else info

/-- One turn of the loop in `rtl83xx_vlan_del`. -/
def delVid (port : Nat) (pvid : BitVec 16) (s : Priv) (v : Nat) : Priv :=
  -- Reset to default if removing the current PVID
  let s := if v = pvid.toNat then
      { s with vlanPortPb := Function.update s.vlanPortPb port 0#32 }
    else s
  -- Get port memberships of this vlan
  let (info, s) := vlanTablesRead s (BitVec.ofNat 32 v)
  let info := delInfo port v info
  let s := vlanSetUntagged s (BitVec.ofNat 32 v) info.untaggedPorts
  vlanSetTagged s (BitVec.ofNat 32 v) info

/-- `rtl83xx_vlan_del` -/
def vlanDel (s : Priv) (port : Nat) (vlan : PortVlan) : Priv :=
  if 4095 < vlan.vidBegin.toNat ∨ 4095 < vlan.vidEnd.toNat then s
  else vlan.vids.foldl (delVid port (s.pvid port)) s

inductive Call where
  | add (port : Nat) (vlan : PortVlan)
  | del (port : Nat) (vlan : PortVlan)

def call (s : Priv) : Call → Priv
  | .add port vlan => vlanAdd s port vlan
  | .del port vlan => vlanDel s port vlan

end HandsomeMod.Native.Rtl83xx.Vlan
