import Mathlib

/-!
# VLANs of the RTL8366 family

Embeds the VLAN part of `drivers/net/phy/rtl8366_smi.c` and the register accessors of the chip
drivers (`rtl8366rb_get_vlan_4k` and its siblings), as far as they check their arguments. The
registers store and return what is written.
-/

namespace HandsomeMod.Native.Rtl8366

/-- `struct rtl8366_vlan_mc` -/
structure VlanMc where
  vid : UInt16
  untag : UInt16
  member : UInt16
  fid : UInt8
  priority : UInt8
  deriving DecidableEq

/-- `struct rtl8366_vlan_4k` -/
structure Vlan4k where
  vid : UInt16
  untag : UInt16
  member : UInt16
  fid : UInt8
  deriving DecidableEq

/-- The constants of a chip. -/
structure Chip where
  numPorts : Nat
  /-- `RTL8366RB_NUM_VLANS` -/
  numVlanMc : Nat
  memberMask : UInt16
  untagMask : UInt16
  fidMax : UInt8
  priorityMax : UInt8

/-- `RTL8366RB_NUM_VIDS`, the same for all chips. -/
def numVids : Nat := 4096

/-- `struct rtl8366_smi` and the registers behind it. -/
structure Smi where
  vlan4k : Nat → Vlan4k
  vlanMc : Nat → VlanMc
  mcIndex : Nat → Nat
  vlanEnabled : Bool
  vlan4kEnabled : Bool

inductive Errno where
  | einval
  | enospc
  deriving Repr, DecidableEq

variable (c : Chip)

/-! ### Accessors -/

def getVlan4k (s : Smi) (vid : Nat) : Except Errno Vlan4k :=
  if vid ≥ numVids then .error .einval
  else .ok { s.vlan4k vid with vid := UInt16.ofNat vid }

def setVlan4k (s : Smi) (vlan4k : Vlan4k) : Except Errno Smi :=
  if vlan4k.vid.toNat ≥ numVids ∨ vlan4k.member > c.memberMask ∨ vlan4k.untag > c.untagMask ∨
      vlan4k.fid > c.fidMax then .error .einval
  else .ok { s with
    vlan4k := fun vid => if vid = vlan4k.vid.toNat then vlan4k else s.vlan4k vid }

def getVlanMc (s : Smi) (index : Nat) : Except Errno VlanMc :=
  if index ≥ c.numVlanMc then .error .einval else .ok (s.vlanMc index)

def setVlanMc (s : Smi) (index : Nat) (vlanmc : VlanMc) : Except Errno Smi :=
  if index ≥ c.numVlanMc ∨ vlanmc.vid.toNat ≥ numVids ∨ vlanmc.priority > c.priorityMax ∨
      vlanmc.member > c.memberMask ∨ vlanmc.untag > c.untagMask ∨ vlanmc.fid > c.fidMax then
    .error .einval
  else .ok { s with vlanMc := fun i => if i = index then vlanmc else s.vlanMc i }

def getMcIndex (s : Smi) (port : Nat) : Except Errno Nat :=
  if port ≥ c.numPorts then .error .einval else .ok (s.mcIndex port)

def setMcIndex (s : Smi) (port index : Nat) : Except Errno Smi :=
  if port ≥ c.numPorts ∨ index ≥ c.numVlanMc then .error .einval
  else .ok { s with mcIndex := fun p => if p = port then index else s.mcIndex p }

def isVlanValid (s : Smi) (vlan : Nat) : Bool :=
  let max := if s.vlan4kEnabled then numVids - 1 else c.numVlanMc
  !(vlan == 0 || vlan ≥ max)

/-! ### `rtl8366_smi.c` -/

/-- The first entry from `i` on that the loop body takes, as the loops over `num_vlan_mc` look for
    it; the first argument bounds the turns. -/
def findVlanMc (s : Smi) (take : VlanMc → Bool) : Nat → Nat → Except Errno (Option (Nat × VlanMc))
  | 0, _ => .ok none
  | fuel + 1, i =>
    if i < c.numVlanMc then do
      let vlanmc ← getVlanMc c s i
      if take vlanmc then .ok (some (i, vlanmc)) else findVlanMc s take fuel (i + 1)
    else .ok none

/-- `rtl8366_mc_is_used` over the ports from `i` on. -/
def mcIsUsed (s : Smi) (mcIndex : Nat) : Nat → Nat → Except Errno Bool
  | 0, _ => .ok false
  | fuel + 1, i =>
    if i < c.numPorts then do
      let index ← getMcIndex c s i
      if mcIndex = index then .ok true else mcIsUsed s mcIndex fuel (i + 1)
    else .ok false

/-- The first entry from `i` on that no port uses. -/
def findUnused (s : Smi) : Nat → Nat → Except Errno (Option Nat)
  | 0, _ => .ok none
  | fuel + 1, i =>
    if i < c.numVlanMc then do
      let used ← mcIsUsed c s i c.numPorts 0
      if !used then .ok (some i) else findUnused s fuel (i + 1)
    else .ok none

def setVlan (s : Smi) (vid member untag fid : Nat) : Except Errno Smi := do
  -- update the 4K table
  let vlan4k ← getVlan4k s vid
  let s ← setVlan4k c s { vlan4k with
    member := UInt16.ofNat member, untag := UInt16.ofNat untag, fid := UInt8.ofNat fid }
  -- try to find an existing MC entry for this VID
  match ← findVlanMc c s (fun vlanmc => vid = vlanmc.vid.toNat) c.numVlanMc 0 with
  | some (i, vlanmc) => setVlanMc c s i { vlanmc with
      member := UInt16.ofNat member, untag := UInt16.ofNat untag, fid := UInt8.ofNat fid }
  | none => pure s

def getPvid (s : Smi) (port : Nat) : Except Errno Nat := do
  let index ← getMcIndex c s port
  let vlanmc ← getVlanMc c s index
  pure vlanmc.vid.toNat

/-- Update the entry from the 4K table and let the port use it. -/
def fillVlanMc (s : Smi) (port vid i : Nat) (vlanmc : VlanMc) : Except Errno Smi := do
  let vlan4k ← getVlan4k s vid
  let s ← setVlanMc c s i { vlanmc with
    vid := UInt16.ofNat vid, member := vlan4k.member, untag := vlan4k.untag, fid := vlan4k.fid }
  setMcIndex c s port i

def setPvid (s : Smi) (port vid : Nat) : Except Errno Smi := do
  match ← findVlanMc c s (fun vlanmc => vid = vlanmc.vid.toNat) c.numVlanMc 0 with
  | some (i, vlanmc) =>
    let s ← setVlanMc c s i vlanmc
    setMcIndex c s port i
  | none =>
    -- try to find an empty one
    match ← findVlanMc c s (fun vlanmc => vlanmc.vid = 0 ∧ vlanmc.member = 0) c.numVlanMc 0 with
    | some (i, vlanmc) => fillVlanMc c s port vid i vlanmc
    | none =>
      -- the MC table is full, `vlanmc` is the last entry that was read
      match ← findUnused c s c.numVlanMc 0 with
      | some i => fillVlanMc c s port vid i (s.vlanMc (c.numVlanMc - 1))
      | none => .error .enospc

/-- Clear the entries from `i` on. -/
def clearVlanMc (s : Smi) : Nat → Nat → Except Errno Smi
  | 0, _ => .ok s
  | fuel + 1, i =>
    if i < c.numVlanMc then do
      let s ← setVlanMc c s i { vid := 0, untag := 0, member := 0, fid := 0, priority := 0 }
      clearVlanMc s fuel (i + 1)
    else .ok s

/-- The results of `rtl8366_enable_vlan` and `rtl8366_enable_vlan4k` are not looked at. -/
def resetVlan (s : Smi) : Except Errno Smi :=
  clearVlanMc c { s with vlanEnabled := false, vlan4kEnabled := false } c.numVlanMc 0

/-- `struct switch_port` -/
structure SwitchPort where
  id : Nat
  tagged : Bool
  deriving DecidableEq

/-- The loop of `rtl8366_sw_set_vlan_ports`: the state, `member` and `untag`. -/
def setVlanPortsLoop (vlan : Nat) :
    List SwitchPort → Smi → Nat → Nat → Except Errno (Smi × Nat × Nat)
  | [], s, member, untag => .ok (s, member, untag)
  | port :: ports, s, member, untag => do
    let member := member ||| 2 ^ port.id
    let untag := if port.tagged then untag else untag ||| 2 ^ port.id
    -- to ensure that we have a valid MC entry for this VLAN
    let pvid ← getPvid c s port.id
    let s ← (if pvid = 0 then setPvid c s port.id vlan else pure s)
    setVlanPortsLoop vlan ports s member untag

def swSetVlanPorts (s : Smi) (vlan : Nat) (ports : List SwitchPort) : Except Errno Smi :=
  if !isVlanValid c s vlan then .error .einval
  else do
    let (s, member, untag) ← setVlanPortsLoop c vlan ports s 0 0
    setVlan c s vlan member untag 0

/-- `max` is that of the attribute. -/
def swSetVlanFid (s : Smi) (vlan : Nat) (i max : Int) : Except Errno Smi :=
  if !isVlanValid c s vlan then .error .einval
  else if i < 0 ∨ i > max then .error .einval
  else do
    let vlan4k ← getVlan4k s vlan
    setVlan c s vlan vlan4k.member.toNat vlan4k.untag.toNat i.toNat

end HandsomeMod.Native.Rtl8366
