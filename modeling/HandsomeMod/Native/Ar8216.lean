import HandsomeMod.ForStd.CDecimal
import HandsomeMod.ForStd.Snprintf
import HandsomeMod.Native.Swconfig

/-!
# VLANs of the AR8216 family

Embeds `ar8xxx_sw_set_pvid`, `ar8xxx_sw_set_ports`, `ar8xxx_sw_hw_apply` and the part of
`ar8xxx_sw_reset_switch` that is about VLANs, from `drivers/net/phy/ar8216.c`. A `u8` with one bit
for each port is a `BitVec 8`.
-/

namespace HandsomeMod.Native.Ar8216

open Swconfig

/-- `dev->ports` and `dev->vlans` -/
structure Dev where
  ports : Nat
  vlans : Nat
  ports_le : ports ≤ 8

/-- `1 << port` -/
def bit (port : Nat) : BitVec 8 := BitVec.twoPow 8 port

/-- The fields of `struct ar8xxx_priv` that are about VLANs. -/
structure Priv where
  init : Bool
  vlanId : Nat → UInt16
  vlanTable : Nat → BitVec 8
  vlanTagged : BitVec 8
  pvid : Nat → UInt16

variable (dev : Dev)

/-- `ar8xxx_sw_set_pvid`, with AR8X16_MAX_PORTS -/
def swSetPvid (s : Priv) (port : Nat) (vlan : Int) : Result Priv :=
  -- make sure no invalid PVIDs get set
  if vlan < 0 ∨ vlan ≥ dev.vlans ∨ port ≥ 8 then (s, .error .einval)
  else ({ s with pvid := Function.update s.pvid port (UInt16.ofInt vlan) }, .ok ())

/-- An untagged port leaves the VLANs other than `vlan`. -/
def leaveOthers (s : Priv) (vlan port : Nat) : Priv :=
  { s with vlanTable := fun j =>
      if j < dev.vlans ∧ j ≠ vlan then s.vlanTable j &&& ~~~bit port else s.vlanTable j }

/-- A turn of the loop of `ar8xxx_sw_set_ports`. -/
def swSetPort (vlan : Nat) (s : Priv) (p : SwitchPort) : Priv :=
  let s :=
    if p.tagged then { s with vlanTagged := s.vlanTagged ||| bit p.id }
    else
      -- make sure that an untagged port does not appear in other vlans
      leaveOthers dev
        { s with
          vlanTagged := s.vlanTagged &&& ~~~bit p.id
          pvid := Function.update s.pvid p.id (UInt16.ofNat vlan) } vlan p.id
  { s with vlanTable := Function.update s.vlanTable vlan (s.vlanTable vlan ||| bit p.id) }

/-- `ar8xxx_sw_set_ports` -/
def swSetPorts (s : Priv) (vlan : Nat) (ports : List SwitchPort) : Result Priv :=
  let s := { s with vlanTable := Function.update s.vlanTable vlan 0 }
  (ports.foldl (swSetPort dev vlan) s, .ok ())

/-- The operations of `ar8xxx_sw_ops` -/
def switchDev : SwitchDev Priv :=
  { ports := dev.ports
    vlans := dev.vlans
    setVlanPorts := some (swSetPorts dev)
    setPortPvid := some (swSetPvid dev) }

/-- The port destination masks and the VLAN translation unit. -/
structure Hw where
  portmask : Nat → BitVec 8
  vtu : List (UInt16 × BitVec 8)

/-- The members `vp` of a VLAN may send to each other. -/
def addMembers (vp : BitVec 8) (portmask : Nat → BitVec 8) : Nat → BitVec 8 := fun i =>
  if i < dev.ports ∧ vp &&& bit i ≠ 0 then portmask i ||| (vp &&& ~~~bit i) else portmask i

/-- A turn of the loop of `ar8xxx_sw_hw_apply` over the VLANs. -/
def applyVlan (s : Priv) (hw : Hw) (j : Nat) : Hw :=
  let vp := s.vlanTable j
  if vp = 0 then hw
  else { portmask := addMembers dev vp hw.portmask, vtu := hw.vtu ++ [(s.vlanId j, vp)] }

/-- `ar8xxx_sw_hw_apply`; AR8216_PORT_CPU is port 0. -/
def swHwApply (s : Priv) : Hw :=
  if !s.init then
    -- calculate the port destination masks and load vlans into the vlan translation unit
    (List.range dev.vlans).foldl (applyVlan dev s) { portmask := fun _ => 0, vtu := [] }
  else
    -- vlan disabled: isolate all ports, but connect them to the cpu port
    { portmask := fun i =>
        if i = 0 then (List.range dev.ports).foldl (fun m k => if k = 0 then m else m ||| bit k) 0
        else if i < dev.ports then bit 0 else 0
      vtu := [] }

/-- `ar8xxx_sw_reset_switch` -/
def swResetSwitch (s : Priv) : Priv :=
  { init := s.init
    vlanId := fun i => if i < dev.vlans then UInt16.ofNat i else 0
    vlanTable := fun _ => 0
    vlanTagged := 0
    pvid := fun _ => 0 }

end HandsomeMod.Native.Ar8216

/-!
## The address table of the AR8216 family

Embeds `ar8xxx_sw_get_arl_table` of `drivers/net/phy/ar8216.c`. What `chip->get_arl_entry` returns
until its status is zero is a list of entries.
-/

namespace HandsomeMod.Native.Ar8216.Arl

open ForStd

/-- AR8XXX_NUM_ARL_RECORDS -/
def numArlRecords : Nat := 100

/-- `sizeof(priv->arl_buf)` -/
def sizeofArlBuf : Nat := numArlRecords * 32 + 256

/-- `struct arl_entry` -/
structure ArlEntry where
  portmap : BitVec 16
  mac : Vector UInt8 6
  deriving DecidableEq

/-- The loop that ignores ports already seen in a former entry of `arl_table`; none if it goes to
    `duplicate`. -/
def ignoreSeen (a : ArlEntry) : List ArlEntry → Option ArlEntry
  | [] => some a
  | a1 :: rest =>
    if a.mac = a1.mac then
      let a := { a with portmap := a.portmap &&& ~~~a1.portmap }
      if a.portmap = 0 then none else ignoreSeen a rest
    else ignoreSeen a rest

/-- The loop that reads the entries, with the records of `arl_table` so far. -/
def readArl : List ArlEntry → List ArlEntry → List ArlEntry
  | [], arlTable => arlTable
  | a :: entries, arlTable =>
    if arlTable.length = numArlRecords then arlTable
    else
      match ignoreSeen a arlTable with
      | none => readArl entries arlTable
      | some a => readArl entries (arlTable ++ [a])

/-- `%02x` -/
def hex2 (b : UInt8) : List UInt8 := hexText 2 b.toUInt32

def header : List UInt8 := ascii "address resolution table\n"

def tooMany : List UInt8 :=
  ascii "Too many entries found, displaying the first " ++ decText numArlRecords ++ ascii " only!\n"

/-- `Port %d: MAC %02x:%02x:%02x:%02x:%02x:%02x` -/
def line (port : Nat) (mac : Vector UInt8 6) : List UInt8 :=
  ascii "Port " ++ decText port ++ ascii ": MAC " ++ hex2 mac[5] ++ ascii ":" ++ hex2 mac[4] ++
    ascii ":" ++ hex2 mac[3] ++ ascii ":" ++ hex2 mac[2] ++ ascii ":" ++ hex2 mac[1] ++
    ascii ":" ++ hex2 mac[0] ++ ascii "\n"

/-- `ar8xxx_sw_get_arl_table`: `arl_buf` with the length of the value -/
def swGetArlTable (dev : Dev) (entries : List ArlEntry) (arlBuf : Mem) : Out sizeofArlBuf :=
  let arlTable := readArl entries []
  let out : Out sizeofArlBuf := { mem := arlBuf, len := 0 }
  let out := out.print header
  let out := if arlTable.length = numArlRecords then out.print tooMany else out
  (List.range dev.ports).foldl (fun out j =>
    arlTable.foldl (fun out a =>
      if a.portmap.getLsbD j then out.print (line j a.mac) else out) out) out

end HandsomeMod.Native.Ar8216.Arl
