import HandsomeMod.ForStd.CDecimal
import HandsomeMod.Native.Swconfig

/-!
# Port lists of `swconfig`

Embeds the `SWITCH_TYPE_PORTS` branch of `swlib_set_attr_string` in `swlib.c`, a scanner that moves a
pointer through a string, and of `print_attr_val` in `cli.c`. A string is the list of its bytes in
front of the `NUL`; a read behind the `NUL` and a write behind the array are faults. The ports go to
the kernel with `send_attr_ports`.
-/

namespace HandsomeMod.Native.Swlib

open ForStd

/-- `struct switch_port` -/
structure SwitchPort where
  id : UInt32
  flags : UInt32
  deriving DecidableEq

/-- `SWLIB_PORT_FLAG_TAGGED` -/
def tagged : UInt32 := 1

inductive Fault where
  /-- A read behind the end of the string. -/
  | read
  /-- A write behind the end of `ports`. -/
  | write
  /-- The turns of the model do not suffice. -/
  | fuel
  deriving DecidableEq, Repr

/-- `*ptr` -/
def charAt (str : List UInt8) (ptr : Nat) : Except Fault UInt8 :=
  if str.length < ptr then .error .read else .ok (str.getD ptr 0)

/-- `while(*ptr && isspace(*ptr)) ptr++;` -/
def skipSpaces (str : List UInt8) (ptr : Nat) : Except Fault Nat :=
  if str.length < ptr then .error .read
  else
    let c := str.getD ptr 0
    if c ≠ 0 ∧ isSpace c then skipSpaces str (ptr + 1) else .ok ptr
termination_by str.length + 1 - ptr

/-- `while(*ptr && !isspace(*ptr))`: the flags and the pointer behind the loop, or none for -1. -/
def flagLoop (str : List UInt8) (ptr : Nat) (flags : UInt32) : Except Fault (Option (UInt32 × Nat)) :=
  if str.length < ptr then .error .read
  else
    let c := str.getD ptr 0
    if c ≠ 0 ∧ ¬isSpace c then
      -- 't'
      if c = 0x74 then flagLoop str (ptr + 1) (flags ||| tagged) else .ok none
    else .ok (some (flags, ptr))
termination_by str.length + 1 - ptr

/-- `strtoul(ptr, &ptr, 10)` with an `unsigned long` of `w` bits -/
def strtoulAt (w : Nat) (str : List UInt8) (ptr : Nat) : Nat × Nat :=
  let r := strtoul10 w (str.drop ptr)
  (r.1, str.length - r.2.length)

/-- `ports[len].flags = flags; ports[len].id = id` -/
def setPort (ports : List SwitchPort) (len : Nat) (port : SwitchPort) :
    Except Fault (List SwitchPort) :=
  if len < ports.length then .ok (ports.set len port) else .error .write

/-- `while(ptr && *ptr)`: `val.len` and `ports` behind the loop, or none for -1. -/
def portsLoop (w : Nat) (devPorts : Nat) (str : List UInt8) :
    Nat → Nat → Nat → List SwitchPort → Except Fault (Option (Nat × List SwitchPort))
  | 0, _, _, _ => .error .fuel
  | fuel + 1, ptr, len, ports => do
    let c ← charAt str ptr
    if c = 0 then return some (len, ports)
    let ptr ← skipSpaces str ptr
    let c ← charAt str ptr
    if c = 0 then return some (len, ports)
    if ¬isDigit c then return none
    -- more ports than the switch has
    if len ≥ devPorts then return none
    -- the id is entered before the flags are read
    let (id, ptr) := strtoulAt w str ptr
    let ports ← setPort ports len ⟨UInt32.ofNat id, 0⟩
    match ← flagLoop str ptr 0 with
    | none => return none
    | some (flags, ptr) =>
      let ports ← setPort ports len ⟨UInt32.ofNat id, flags⟩
      let c ← charAt str ptr
      -- the space behind the word is stepped over
      portsLoop w devPorts str fuel (if c ≠ 0 then ptr + 1 else ptr) (len + 1) ports

/-- The branch of `swlib_set_attr_string`: the ports of `val`, or none for -1. -/
def setAttrPorts (w : Nat) (devPorts : Nat) (str : List UInt8) :
    Except Fault (Option (List SwitchPort)) := do
  let r ← portsLoop w devPorts str (str.length + 1) 0 0 (List.replicate devPorts ⟨0, 0⟩)
  return r.map fun (len, ports) => ports.take len

/-- The branch of `print_attr_val`. -/
def printPorts (ports : List SwitchPort) : List UInt8 :=
  ports.flatMap fun port =>
    intText port.id.toInt32.toInt ++ (if port.flags &&& tagged ≠ 0 then ascii "t" else []) ++ ascii " "

/-! ### The request -/

/-- The calls that add an attribute to a message; without room for it they give `NULL` or an error. -/
structure NlMsg (μ : Type) where
  nlaNestStart : μ → Option μ
  nlaPutU32 : UInt32 → μ → Option μ
  nlaPutFlag : μ → Option μ
  nlaNestEnd : μ → μ

variable {μ : Type} (nl : NlMsg μ)

/-- The attributes that `send_attr_ports` nests for a port -/
def putPort (port : SwitchPort) (msg : μ) : Option μ := do
  let msg ← nl.nlaNestStart msg
  let msg ← nl.nlaPutU32 port.id msg -- SWITCH_PORT_ID
  let msg ← if port.flags &&& tagged ≠ 0 then nl.nlaPutFlag msg else some msg
  some (nl.nlaNestEnd msg)

/-- The loop of `send_attr_ports` -/
def putPorts : List SwitchPort → μ → Option μ
  | [], msg => some msg
  | port :: ports, msg => putPort nl port msg >>= putPorts ports

/-- A port as it is found in the message -/
def portAttr (port : SwitchPort) : Swconfig.PortAttr where
  wellFormed := true
  id := some port.id
  tagged := decide (port.flags &&& tagged ≠ 0)

/-- `send_attr_ports`: the message with SWITCH_ATTR_OP_VALUE_PORTS, which is not there for an empty
    list, or none for -1. -/
def sendAttrPorts (ports : List SwitchPort) (msg : μ) :
    Option (μ × Option (List Swconfig.PortAttr)) :=
  if ports.length = 0 then some (msg, none)
  else do
    let msg ← nl.nlaNestStart msg
    let msg ← putPorts nl ports msg
    some (nl.nlaNestEnd msg, some (ports.map portAttr))

/-- `swlib_set_attr_string` for a message that holds the attributes of `send_attr`: what is sent, or
    none if nothing is. -/
def setAttrString (w : Nat) (devPorts : Nat) (msg : μ) (str : List UInt8) :
    Except Fault (Option (μ × Option (List Swconfig.PortAttr))) := do
  let r ← setAttrPorts w devPorts str
  return r.bind fun ports => sendAttrPorts nl ports msg

end HandsomeMod.Native.Swlib
