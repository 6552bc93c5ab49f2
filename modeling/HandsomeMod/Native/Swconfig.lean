import Mathlib
import HandsomeMod.ForStd.CDecimal

/-!
# Switch requests

Embeds `swconfig_set_vlan_ports` and `swconfig_set_pvid` of `drivers/net/phy/swconfig.c` over the
operations of a switch driver, and `swconfig_parse_ports` and what `swconfig_set_attr` does with a
request to set the ports of a VLAN.
-/

namespace HandsomeMod.Native.Swconfig

universe u

inductive Errno where
  | einval
  | eopnotsupp
  deriving Repr, DecidableEq

/-- `struct switch_port` -/
structure SwitchPort where
  id : Nat
  /-- `SWITCH_PORT_FLAG_TAGGED` -/
  tagged : Bool
  deriving DecidableEq

/-- The state of a driver and the result of a call. -/
abbrev Result (σ : Type u) := σ × Except Errno Unit

/-- `struct switch_dev` with its operations, for a driver with state `σ`. -/
structure SwitchDev (σ : Type u) where
  ports : Nat
  vlans : Nat
  setVlanPorts : Option (σ → Nat → List SwitchPort → Result σ)
  setPortPvid : Option (σ → Nat → Int → Result σ)

variable {σ : Type u} (dev : SwitchDev σ)

/-- The loop of `swconfig_set_vlan_ports`; the result of `set_port_pvid` is not looked at. -/
def checkPorts (portVlan : Nat) : List SwitchPort → σ → Result σ
  | [], s => (s, .ok ())
  | port :: ports, s =>
    if port.id ≥ dev.ports then (s, .error .einval)
    else
      match dev.setPortPvid with
      | some setPortPvid =>
        checkPorts portVlan ports (if port.tagged then s else (setPortPvid s port.id portVlan).1)
      | none => checkPorts portVlan ports s

/-- `swconfig_set_vlan_ports` -/
def setVlanPorts (s : σ) (portVlan : Nat) (ports : List SwitchPort) : Result σ :=
  if portVlan ≥ dev.vlans then (s, .error .einval)
  else if ports.length > dev.ports then (s, .error .einval)
  else
    match dev.setVlanPorts with
    | none => (s, .error .eopnotsupp)
    | some setVlanPorts =>
      match checkPorts dev portVlan ports s with
      | (s, .error e) => (s, .error e)
      | (s, .ok ()) => setVlanPorts s portVlan ports

/-- `swconfig_set_pvid` -/
def setPvid (s : σ) (port : Nat) (pvid : Int) : Result σ :=
  if port ≥ dev.ports then (s, .error .einval)
  else
    match dev.setPortPvid with
    | none => (s, .error .eopnotsupp)
    | some setPortPvid => setPortPvid s port pvid

/-! ### The request for `ports` -/

/-- An attribute nested in SWITCH_ATTR_OP_VALUE_PORTS -/
structure PortAttr where
  /-- `nla_parse_nested_deprecated` accepts it. -/
  wellFormed : Bool
  /-- SWITCH_PORT_ID -/
  id : Option UInt32
  /-- SWITCH_PORT_FLAG_TAGGED -/
  tagged : Bool

/-- `swconfig_parse_ports` -/
def parsePorts (max : Nat) : List PortAttr → List SwitchPort → Except Errno (List SwitchPort)
  | [], ports => .ok ports
  | nla :: nlas, ports =>
    if ports.length ≥ max then .error .einval
    else if !nla.wellFormed then .error .einval
    else
      match nla.id with
      | none => .error .einval
      | some id => parsePorts max nlas (ports ++ [{ id := id.toNat, tagged := nla.tagged }])

/-- The attributes of SWITCH_CMD_SET_VLAN for the attribute VLAN_PORTS -/
structure PortsRequest where
  /-- SWITCH_ATTR_OP_VLAN -/
  vlan : Option UInt32
  /-- SWITCH_ATTR_OP_VALUE_PORTS -/
  ports : Option (List PortAttr)

/-- `swconfig_lookup_attr`: the VLAN, if there is an attribute VLAN_PORTS that is active. -/
def lookupVlanPorts (getVlanPorts : Bool) (req : PortsRequest) : Option Nat :=
  match req.vlan with
  | none => none
  | some vlan =>
    if vlan.toNat ≥ dev.vlans then none
    else if getVlanPorts || dev.setVlanPorts.isSome then some vlan.toNat else none

/-- `swconfig_set_attr`; `getVlanPorts` tells if the driver has `get_vlan_ports`. -/
def setAttrPorts (getVlanPorts : Bool) (s : σ) (req : PortsRequest) : Result σ :=
  match lookupVlanPorts dev getVlanPorts req with
  | none => (s, .error .einval)
  | some vlan =>
    match parsePorts dev.ports (req.ports.getD []) [] with
    | .error e => (s, .error e)
    | .ok ports => setVlanPorts dev s vlan ports

end HandsomeMod.Native.Swconfig

/-!
## Registering switches

Embeds `register_switch` and `unregister_switch` of `drivers/net/phy/swconfig.c` with
`swconfig_create_led_trigger` of `swconfig_leds.c`: the list of switches, their ids and their names.
The environment decides which allocations succeed.
-/

namespace HandsomeMod.Native.Swconfig.Register

open ForStd

universe u

inductive Errno where
  | enomem
  | enfile
  /-- An error of `led_trigger_register` -/
  | led (err : Int)
  deriving Repr, DecidableEq

/-- What the kernel is built for -/
structure Cfg where
  /-- The bits of an `unsigned long`, `max_switches` -/
  longBits : Nat
  longBits_le : longBits ≤ 64
  /-- CONFIG_SWCONFIG_LEDS -/
  leds : Bool

/-- The fields of `struct switch_dev` that `register_switch` reads, for the device `dev` -/
structure SwitchDev (δ : Type u) where
  dev : δ
  ports : Nat
  /-- `ops->get_port_link` is there. -/
  getPortLink : Bool

/-- An entry of `swdevs` -/
structure Listed (δ : Type u) where
  dev : δ
  id : Nat
  devname : List UInt8

/-- `swdevs` and `swdev_id` -/
structure Registry (δ : Type u) where
  swdevs : List (Listed δ)
  swdevId : Nat

/-- The steps that may fail -/
structure Env where
  portbuf : Bool
  portmap : Bool
  /-- the allocation of the LED trigger -/
  swTrig : Bool
  ledTriggerRegister : Option Int

/-! ### Names -/

/-- `snprintf(dev->devname, IFNAMSIZ, SWCONFIG_DEVNAME, i)` -/
def devname (i : Nat) : List UInt8 := (ascii "switch" ++ decText i).take 15

/-- The conversion `%d` of `sscanf` in the kernel, for an `int` -/
def scanInt (s : List UInt8) : Option Int :=
  let s := s.dropWhile isSpace
  let neg := s.head? == some 0x2d
  let ds := (if neg then s.tail else s).takeWhile isDigit
  if ds = [] then none
  else some (Int.bmod (if neg then -(decimal ds : Int) else decimal ds) (2 ^ 32))

/-- `sscanf(sdev->devname, SWCONFIG_DEVNAME, &i)` -/
def scanDevname (s : List UInt8) : Option Int :=
  if (ascii "switch").isPrefixOf s then scanInt (s.drop 6) else none

variable {δ : Type u} (cfg : Cfg)

/-- `set_bit(i, &in_use)` for the name of a listed switch -/
def markInUse (inUse : BitVec cfg.longBits) (sdev : Listed δ) : BitVec cfg.longBits :=
  match scanDevname sdev.devname with
  | none => inUse
  | some i =>
    if i < 0 ∨ i > cfg.longBits then inUse else inUse ||| BitVec.twoPow cfg.longBits i.toNat

/-- `in_use` after the loop over `swdevs` -/
def inUse (swdevs : List (Listed δ)) : BitVec cfg.longBits := swdevs.foldl (markInUse cfg) 0

/-- `find_first_zero_bit` -/
def findFirstZeroBit {w : Nat} (x : BitVec w) : Nat :=
  ((List.range w).find? fun i => !x.getLsbD i).getD w

/-! ### Registration -/

/-- `swconfig_create_led_trigger` -/
def createLedTrigger (dev : SwitchDev δ) (env : Env) : Option Errno :=
  if !cfg.leds then none
  else if !dev.getPortLink then none
  else if !env.swTrig then some .enomem
  else env.ledTriggerRegister.map .led

/-- `register_switch`: the list of switches, and the error if there is one -/
def registerSwitch (s : Registry δ) (dev : SwitchDev δ) (env : Env) : Registry δ × Option Errno :=
  -- make sure swdev_id doesn't overflow
  if s.swdevId = 2 ^ 31 - 1 then (s, some .enomem)
  else if dev.ports > 0 ∧ (env.portbuf = false ∨ env.portmap = false) then (s, some .enomem)
  else
    let s := { s with swdevId := s.swdevId + 1 }
    let i := findFirstZeroBit (inUse cfg s.swdevs)
    if i = cfg.longBits then (s, some .enfile)
    else
      let s := { s with
        swdevs := s.swdevs ++ [{ dev := dev.dev, id := s.swdevId, devname := devname i }] }
      (s, createLedTrigger cfg dev env)

/-- `unregister_switch` -/
def unregisterSwitch [DecidableEq δ] (s : Registry δ) (dev : δ) : Registry δ :=
  { s with swdevs := s.swdevs.filter fun sdev => sdev.dev ≠ dev }

end HandsomeMod.Native.Swconfig.Register

/-!
## Switch enumeration

`swconfig_send_switch` and `swconfig_dump_switches` of `drivers/net/phy/swconfig.c`, over a netlink
message of limited size. The netlink core calls the dump with an empty message until it adds
nothing.
-/

namespace HandsomeMod.Native.Swconfig.Dump

/-- `struct switch_portmap` -/
structure SwitchPortmap where
  /-- The string `s`, which may be `NULL` -/
  s : Option (List UInt8)
  virt : BitVec 32

/-- The fields of `struct switch_dev` that are reported; `portmap` has `ports` entries. -/
structure SwitchDev where
  id : BitVec 32
  devname : List UInt8
  /-- `alias` -/
  aliasName : List UInt8
  name : List UInt8
  vlans : BitVec 32
  cpuPort : BitVec 32
  portmap : List SwitchPortmap

/-! ### Netlink messages -/

/-- The message buffer: its size and how much of it is in use. -/
structure SkBuff where
  size : Nat
  len : Nat

/-- `skb_put`, if there is room -/
def SkBuff.put (skb : SkBuff) (n : Nat) : Except SkBuff SkBuff :=
  if skb.len + n ≤ skb.size then .ok { skb with len := skb.len + n } else .error skb

/-- `nla_put`: a header of 4 bytes and `n` bytes of data, aligned to 4 bytes. After an error the
    attributes before it are still in the buffer. -/
def nlaPut (n : Nat) (skb : SkBuff) : Except SkBuff SkBuff := skb.put ((4 + n + 3) / 4 * 4)

/-- `nla_put_u32` -/
def nlaPutU32 (skb : SkBuff) : Except SkBuff SkBuff := nlaPut 4 skb

/-- `nla_put_string` -/
def nlaPutString (s : List UInt8) (skb : SkBuff) : Except SkBuff SkBuff := nlaPut (s.length + 1) skb

/-- `nla_nest_start` -/
def nlaNestStart (skb : SkBuff) : Except SkBuff SkBuff := nlaPut 0 skb

/-- `genlmsg_put`: the netlink header of 16 bytes and the generic one of 4. Without room it returns
    `NULL` and not an error pointer. -/
def genlmsgPut (skb : SkBuff) : Bool × SkBuff :=
  match skb.put 20 with
  | .ok skb => (true, skb)
  | .error skb => (false, skb)

/-! ### Reports -/

/-- A report of a switch, with the ports that have an entry in it. -/
structure Report where
  dev : SwitchDev
  ports : List SwitchPortmap

/-- The attributes of an entry of the port map -/
def putPort (port : SwitchPortmap) (skb : SkBuff) : Except SkBuff SkBuff :=
  match port.s with
  | some s => nlaPutString s skb >>= nlaPutU32
  | none => .ok skb

/-- The loop over the ports in `swconfig_send_switch` -/
def putPorts : List SwitchPortmap → SkBuff → Except SkBuff (SkBuff × List SwitchPortmap)
  | [], skb => .ok (skb, [])
  | port :: ports, skb =>
    match nlaNestStart skb with
    | .error skb => putPorts ports skb
    | .ok skb => do
      let skb ← putPort port skb
      let (skb, sent) ← putPorts ports skb
      .ok (skb, port :: sent)

/-- The attributes of `swconfig_send_switch` -/
def putSwitch (dev : SwitchDev) (skb : SkBuff) : Except SkBuff (SkBuff × List SwitchPortmap) := do
  let skb ← nlaPutU32 skb -- SWITCH_ATTR_ID
  let skb ← nlaPutString dev.devname skb
  let skb ← nlaPutString dev.aliasName skb
  let skb ← nlaPutString dev.name skb
  let skb ← nlaPutU32 skb -- SWITCH_ATTR_VLANS
  let skb ← nlaPutU32 skb -- SWITCH_ATTR_PORTS
  let skb ← nlaPutU32 skb -- SWITCH_ATTR_CPU_PORT
  let skb ← nlaNestStart skb
  putPorts dev.portmap skb

inductive SendResult where
  | sent (skb : SkBuff) (report : Report)
  | failed (skb : SkBuff)
  /-- `genlmsg_end` of a `NULL` header -/
  | oops

/-- `swconfig_send_switch`; `genlmsg_cancel` does nothing for a `NULL` header. -/
def sendSwitch (skb : SkBuff) (dev : SwitchDev) : SendResult :=
  let (hdr, msg) := genlmsgPut skb
  match putSwitch dev msg with
  | .ok (msg, ports) => if hdr then .sent msg { dev := dev, ports := ports } else .oops
  | .error msg => .failed (if hdr then skb else msg)

/-! ### Dump -/

/-- The state of the loop of `swconfig_dump_switches` -/
structure DumpState where
  idx : Nat
  skb : SkBuff
  reports : List Report

/-- The loop of `swconfig_dump_switches` over `swdevs` -/
def dumpLoop (start : Nat) : List SwitchDev → DumpState → Option DumpState
  | [], d => some d
  | dev :: devs, d =>
    let d := { d with idx := d.idx + 1 }
    if d.idx ≤ start then dumpLoop start devs d
    else
      match sendSwitch d.skb dev with
      | .sent skb report =>
        dumpLoop start devs { d with skb := skb, reports := d.reports ++ [report] }
      | .failed skb => some { d with skb := skb }
      | .oops => none

/-- `swconfig_dump_switches` with `cb->args[0]`, into an empty message of the given size -/
def dumpSwitches (size args0 : Nat) (swdevs : List SwitchDev) :
    Option DumpState :=
  dumpLoop args0 swdevs { idx := 0, skb := { size := size, len := 0 }, reports := [] }

/-- The calls of the netlink core from call `n` on: until `skb->len` is 0, at most `fuel`. -/
def dumpCalls (size : Nat → Nat) (swdevs : List SwitchDev) : Nat → Nat → Nat → Option (List Report)
  | 0, _, _ => none
  | fuel + 1, n, args0 => do
    let d ← dumpSwitches (size n) args0 swdevs
    if d.skb.len = 0 then some d.reports
    else
      let rest ← dumpCalls size swdevs fuel (n + 1) d.idx
      some (d.reports ++ rest)

/-- A whole dump; message `n` has room for `size n` bytes. Each call but the last passes a switch. -/
def dump (size : Nat → Nat) (swdevs : List SwitchDev) : Option (List Report) :=
  dumpCalls size swdevs (swdevs.length + 1) 0 0

end HandsomeMod.Native.Swconfig.Dump

/-!
## Listing attributes

Embeds `swconfig_dump_attr`, `swconfig_send_multipart` and `swconfig_list_attrs` of
`drivers/net/phy/swconfig.c`. Messages are numbered in the order of their allocation; the
environment decides how much room they have, which allocation fails and which reply.
-/

namespace HandsomeMod.Native.Swconfig.Attrs

open Dump

/-- `struct switch_attr` -/
structure SwitchAttr where
  disabled : Bool
  type : BitVec 32
  name : List UInt8
  /-- The string, which may be `NULL` -/
  description : Option (List UInt8)

/-- An attribute and its number in `cb->args[0]` -/
structure Entry where
  id : Nat
  attr : SwitchAttr

/-- The attributes of a report -/
def putAttr (op : SwitchAttr) (skb : SkBuff) : Except SkBuff SkBuff := do
  let skb ← nlaPutU32 skb -- SWITCH_ATTR_OP_ID
  let skb ← nlaPutU32 skb -- SWITCH_ATTR_OP_TYPE
  let skb ← nlaPutString op.name skb
  match op.description with
  | none => .ok skb
  | some description => nlaPutString description skb

/-- `swconfig_dump_attr`; the error carries what is left in the message. `genlmsg_cancel` does
    nothing for a `NULL` header, but without room for the header there is none for the attributes. -/
def dumpAttr (skb : SkBuff) (op : SwitchAttr) : Except SkBuff SkBuff :=
  let (hdr, msg) := genlmsgPut skb
  match putAttr op msg with
  | .ok msg => .ok msg
  | .error msg => .error (if hdr then skb else msg)

/-- What the environment does to the message of a number -/
structure Env where
  /-- `nlmsg_new` succeeds. -/
  alloc : Nat → Bool
  /-- The size of its buffer -/
  size : Nat → Nat
  /-- `genlmsg_reply` succeeds; it takes the message in any case. -/
  reply : Nat → Bool

/-- A message with the reports in it -/
structure Msg where
  id : Nat
  skb : SkBuff
  reports : List Entry

/-- `struct swconfig_callback`, the number of messages that were allocated, those that were given to
    `genlmsg_reply` or to `nlmsg_free`, and the reports that arrived. -/
structure Callback where
  msg : Option Msg
  allocated : Nat
  released : List Nat
  sent : List Entry

variable (env : Env)

/-- `genlmsg_reply`: the message is given away. -/
def genlmsgReply (cb : Callback) (msg : Msg) : Callback × Bool :=
  ({ cb with
    released := cb.released ++ [msg.id]
    sent := if env.reply msg.id then cb.sent ++ msg.reports else cb.sent }, env.reply msg.id)

/-- `nlmsg_free` -/
def nlmsgFree (cb : Callback) (msg : Msg) : Callback :=
  { cb with released := cb.released ++ [msg.id] }

/-- `if (!cb->msg) cb->msg = nlmsg_new(..)` -/
def getMsg (cb : Callback) : Callback × Option Msg :=
  match cb.msg with
  | some msg => (cb, some msg)
  | none =>
    if env.alloc cb.allocated then
      let msg := { id := cb.allocated, skb := { size := env.size cb.allocated, len := 0 }
                   reports := [] }
      ({ cb with msg := some msg, allocated := cb.allocated + 1 }, some msg)
    else (cb, none)

/-- The loop of `swconfig_send_multipart`, with the restarts that are left; there is no
    `cb->close`. -/
def sendLoop (e : Entry) : Nat → Callback → Callback × Bool
  | restarts, cb =>
    match getMsg env cb with
    | (cb, none) => (cb, false)
    | (cb, some msg) =>
      match dumpAttr msg.skb e.attr with
      | .ok skb =>
        ({ cb with msg := some { msg with skb := skb, reports := msg.reports ++ [e] } }, true)
      | .error skb =>
        match restarts with
        -- this was the second attempt: the message is freed, and cb->msg is left as it is
        | 0 => ({ nlmsgFree cb msg with msg := some { msg with skb := skb } }, false)
        -- try again in a new message, send the current one
        | restarts + 1 =>
          match genlmsgReply env cb msg with
          | (cb, false) => ({ cb with msg := none }, false)
          | (cb, true) => sendLoop e restarts { cb with msg := none }

/-- Without a message the loop ends with an error. -/
theorem sendLoop_none {cb cb' : Callback} {e : Entry} {n : Nat}
    (hget : getMsg env cb = (cb', none)) : sendLoop env e n cb = (cb', false) := by
  cases n with
  | zero => rw [sendLoop, hget]
  | succ n => rw [sendLoop, hget]

/-- `swconfig_send_multipart` -/
def sendMultipart (cb : Callback) (e : Entry) : Callback × Bool := sendLoop env e 1 cb

/-- The two loops of `swconfig_list_attrs` -/
def listLoop : List Entry → Callback → Callback × Bool
  | [], cb => (cb, true)
  | e :: es, cb =>
    match sendMultipart env cb e with
    | (cb, false) => (cb, false)
    | (cb, true) => listLoop es cb

/-- The attributes that are listed: those of the driver that are not disabled, and the defaults that
    are active. -/
def entries (attrs : List SwitchAttr) (defaults : List (SwitchAttr × Bool)) : List Entry :=
  ((attrs.zipIdx.filter fun a => !a.1.disabled).map fun a => { id := a.2, attr := a.1 }) ++
    (defaults.zipIdx.filter fun a => a.1.2).map fun a => { id := 0x1000 + a.2, attr := a.1.1 }

/-- The callback after `memset` -/
def Callback.init : Callback := { msg := none, allocated := 0, released := [], sent := [] }

/-- `swconfig_list_attrs`: the callback at its end, and if it returns 0 -/
def listAttrs (attrs : List SwitchAttr) (defaults : List (SwitchAttr × Bool)) : Callback × Bool :=
  match listLoop env (entries attrs defaults) Callback.init with
  | (cb, false) =>
    match cb.msg with
    | none => (cb, false)
    | some msg => (nlmsgFree cb msg, false)
  | (cb, true) =>
    match cb.msg with
    | none => (cb, true)
    | some msg => genlmsgReply env cb msg

end HandsomeMod.Native.Swconfig.Attrs
