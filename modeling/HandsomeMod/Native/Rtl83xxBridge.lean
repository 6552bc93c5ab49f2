import HandsomeMod.Native.Rtl83xx

/-!
# Bridge ports of the RTL838x

`rtl83xx_port_enable`, `rtl83xx_port_disable`, `rtl83xx_port_bridge_join` and
`rtl83xx_port_bridge_leave` of `dsa.c`, with the traffic matrix of `rtl838x.c`. The DSA core
sets `bridge_dev` before it calls join and clears it before it calls leave.
-/

namespace HandsomeMod.Native.Rtl83xx.Bridge

universe u

/-- `struct rtl838x_port`, with the `bridge_dev` of its `dsa_port` -/
structure Port (β : Type u) where
  enable : Bool
  pm : U64
  bridgeDev : Option β

/-- `struct rtl838x_switch_priv` and the registers `RTL838X_PORT_ISO_CTRL(i)`: with bit `j` of
    register `i`, port `i` may send to port `j`. -/
structure Priv (β : Type u) where
  ports : Nat → Port β
  portIsoCtrl : Nat → U32

variable {β : Type u}

/-! ### Traffic matrix -/

/-- `rtl838x_traffic_get` -/
def Priv.trafficGet (s : Priv β) (source : Nat) : U64 := getPortReg (s.portIsoCtrl source)

/-- `rtl838x_traffic_set` -/
def Priv.trafficSet (s : Priv β) (source : Nat) (destMatrix : U64) : Priv β :=
  { s with portIsoCtrl := Function.update s.portIsoCtrl source (setPortReg destMatrix) }

/-- `rtl838x_traffic_enable` -/
def Priv.trafficEnable (s : Priv β) (source dest : Nat) : Priv β :=
  let r := maskPortReg 0 ((bit32 dest).setWidth 64) (s.portIsoCtrl source)
  { s with portIsoCtrl := Function.update s.portIsoCtrl source r }

/-- `rtl838x_traffic_disable` -/
def Priv.trafficDisable (s : Priv β) (source dest : Nat) : Priv β :=
  let r := maskPortReg ((bit32 dest).setWidth 64) 0 (s.portIsoCtrl source)
  { s with portIsoCtrl := Function.update s.portIsoCtrl source r }

/-- `priv->ports[port].enable = enable` -/
def Priv.setEnable (s : Priv β) (port : Nat) (enable : Bool) : Priv β :=
  { s with ports := Function.update s.ports port { s.ports port with enable := enable } }

/-- `priv->ports[port].pm = pm` -/
def Priv.setPm (s : Priv β) (port : Nat) (pm : U64) : Priv β :=
  { s with ports := Function.update s.ports port { s.ports port with pm := pm } }

/-- `dp->bridge_dev = bridge` -/
def Priv.setBridgeDev (s : Priv β) (port : Nat) (bridge : Option β) : Priv β :=
  { s with ports := Function.update s.ports port { s.ports port with bridgeDev := bridge } }

/-! ### Ports -/

/-- `rtl83xx_port_enable` of a user port -/
def portEnable (s : Priv β) (port : Nat) : Priv β :=
  let s := s.setEnable port true
  -- add port to switch mask of CPU_PORT
  let s := s.trafficEnable cpuPort port
  -- add all other ports in the same bridge to switch mask of port
  s.trafficSet port (s.trafficGet port ||| (s.ports port).pm)

/-- `rtl83xx_port_disable` of a user port -/
def portDisable (s : Priv β) (port : Nat) : Priv β :=
  let s := s.trafficDisable cpuPort port
  let s := s.trafficSet port (s.trafficGet port &&& ~~~(s.ports port).pm)
  s.setEnable port false

variable [DecidableEq β]

/-- One port `i` of the loop in `rtl83xx_port_bridge_join`, with `port_bitmap` -/
def joinOther (d : Dsa) (port : Nat) (bridge : β) (s : Priv β × U64) (i : Nat) : Priv β × U64 :=
  if d.isUserPort i ∧ i ≠ port then
    if (s.1.ports i).bridgeDev ≠ some bridge then s
    else
      let p := if (s.1.ports i).enable then s.1.trafficEnable i port else s.1
      (p.setPm i ((p.ports i).pm ||| bitUll port), s.2 ||| bitUll i)
  else s

/-- `rtl83xx_port_bridge_join` -/
def portBridgeJoin (d : Dsa) (s : Priv β) (port : Nat) (bridge : β) : Priv β :=
  let (s, portBitmap) := (List.range numPorts).foldl (joinOther d port bridge) (s, bitUll cpuPort)
  let s := if (s.ports port).enable then
      let s := s.trafficEnable cpuPort port
      s.trafficSet port (s.trafficGet port ||| portBitmap)
    else s
  s.setPm port ((s.ports port).pm ||| portBitmap)

/-- One port `i` of the loop in `rtl83xx_port_bridge_leave`, with `port_bitmap` -/
def leaveOther (d : Dsa) (port : Nat) (bridge : β) (s : Priv β × U64) (i : Nat) : Priv β × U64 :=
  if d.isUserPort i ∧ i ≠ port then
    if (s.1.ports i).bridgeDev ≠ some bridge then s
    else
      let p := if (s.1.ports i).enable then s.1.trafficDisable i port else s.1
      -- the mask of the other port gets the bit again
      (p.setPm i ((p.ports i).pm ||| bitUll port), s.2 &&& ~~~bitUll i)
  else s

/-- `rtl83xx_port_bridge_leave` -/
def portBridgeLeave (d : Dsa) (s : Priv β) (port : Nat) (bridge : β) : Priv β :=
  let (s, portBitmap) := (List.range numPorts).foldl (leaveOther d port bridge) (s, bitUll cpuPort)
  let s := if (s.ports port).enable then
      s.trafficSet port (s.trafficGet port ||| portBitmap)
    else s
  s.setPm port ((s.ports port).pm &&& ~~~portBitmap)

/-! ### Requests -/

/-- What the DSA core asks the driver for. -/
inductive Request (β : Type u) where
  | enable (port : Nat)
  | disable (port : Nat)
  | join (port : Nat) (bridge : β)
  | leave (port : Nat) (bridge : β)
  deriving DecidableEq

/-- The requests that the DSA core makes: a port joins a bridge when it is in none and leaves the
    one that it is in. -/
def Request.Allowed (d : Dsa) (s : Priv β) : Request β → Prop
  | .enable port => d.isUserPort port
  | .disable port => d.isUserPort port
  | .join port _ => d.isUserPort port ∧ (s.ports port).bridgeDev = none
  | .leave port bridge => d.isUserPort port ∧ (s.ports port).bridgeDev = some bridge

def step (d : Dsa) (s : Priv β) : Request β → Priv β
  | .enable port => portEnable s port
  | .disable port => portDisable s port
  | .join port bridge => portBridgeJoin d (s.setBridgeDev port (some bridge)) port bridge
  | .leave port bridge => portBridgeLeave d (s.setBridgeDev port none) port bridge

/-- No port is in a bridge, the masks have the CPU port alone and the traffic matrix has no pair of
    user ports, as `rtl83xx_setup` leaves it. Ports that are enabled already reach the CPU port. -/
structure Init (d : Dsa) (s : Priv β) : Prop where
  bridge : ∀ i, d.isUserPort i → (s.ports i).bridgeDev = none
  pm : ∀ i, d.isUserPort i → (s.ports i).pm = bitUll cpuPort
  isolated : ∀ i j, d.isUserPort i → d.isUserPort j → i ≠ j →
    (s.portIsoCtrl i).getLsbD j = false
  enabled : ∀ i, d.isUserPort i → (s.ports i).enable →
    (s.portIsoCtrl i).getLsbD cpuPort ∧ (s.portIsoCtrl cpuPort).getLsbD i

end HandsomeMod.Native.Rtl83xx.Bridge
