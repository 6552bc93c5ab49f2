import Mathlib

/-!
# L2 notifications of the RTL839x

The notification ring of `rtl838x_eth.c`: `rtl839x_l2_notification_handler` copies the events of a
block that the switch has filled into a work item and hands the block back, and
`rtl838x_fdb_sync` tells the bridge about them.
-/

namespace HandsomeMod.Native.Rtl839x.Notify

abbrev U32 := BitVec 32
abbrev U64 := BitVec 64

/-- `NOTIFY_EVENTS` -/
def notifyEvents : Nat := 10

/-- `NOTIFY_BLOCKS` -/
def notifyBlocks : Nat := 10

/-- The fields of `struct n_event` that the driver reads -/
structure Event where
  type : BitVec 2
  mac : BitVec 48
  valid : Bool

/-- `struct notify_block` -/
abbrev Block := Fin notifyEvents → Event

inductive Action where
  | addToBridge
  | delToBridge
  deriving DecidableEq

variable {ν : Type}

/-- A call of `call_switchdev_notifiers`, with `struct switchdev_notifier_fdb_info` -/
structure Notification (ν : Type) where
  action : Action
  ndev : Option ν
  addr : BitVec 48
  vid : BitVec 16
  offloaded : Bool
  deriving DecidableEq

/-- `struct fdb_update_work`; `macs` has `NOTIFY_EVENTS + 1` elements. -/
structure Work (ν : Type) where
  ndev : Option ν
  macs : List U64

/-- The loop of `rtl838x_fdb_sync`, from `macs[i]` on -/
def fdbSyncFrom (ndev : Option ν) : List U64 → List (Notification ν)
  | [] => []
  | mac :: macs =>
    if mac = 0#64 then []
    else
      { action := if mac &&& (1#64 <<< 63) ≠ 0#64 then .addToBridge else .delToBridge
        ndev := ndev
        addr := (mac &&& 0xffffffffffff#64).setWidth 48
        vid := 0#16
        offloaded := true } :: fdbSyncFrom ndev macs

/-- `rtl838x_fdb_sync` -/
def fdbSync (w : Work ν) : List (Notification ν) := fdbSyncFrom w.ndev w.macs

/-- The value that the handler stores for a valid event. -/
def Event.value (event : Event) : U64 :=
  let mac := event.mac.setWidth 64
  if event.type ≠ 0#2 then mac ||| (1#64 <<< 63) else mac

/-- One turn of the loop over the events of a block. -/
def storeEvent (netdev : ν) (b : Block) (w : Work ν) (i : Fin notifyEvents) : Work ν :=
  if !(b i).valid then w
  else { ndev := some netdev, macs := w.macs.set i (b i).value }

/-- The work item for a block. -/
def workOf (netdev : ν) (b : Block) : Work ν :=
  let w := { ndev := none, macs := List.replicate (notifyEvents + 1) 0#64 }
  let w := (List.finRange notifyEvents).foldl (storeEvent netdev b) w
  { w with macs := w.macs.set notifyEvents 0#64 }

/-- The notification ring in memory, with the fields of `struct rtl838x_eth_priv` for it. While the
    handler runs, `running` is its `e`. -/
structure Priv (ν : Type) where
  netdev : ν
  blocks : Nat → Block
  ring : Nat → U32
  lastEvent : Nat
  running : Option Nat
  works : List (Work ν)

/-- The low bit of a ring entry is clear: the block waits for the CPU. -/
def Priv.Ready (p : Priv ν) (e : Nat) : Prop := p.ring e &&& 1#32 = 0#32

instance (p : Priv ν) (e : Nat) : Decidable (p.Ready e) := by
  unfold Priv.Ready
  infer_instance

/-- The entry of `rtl839x_l2_notification_handler` -/
def handlerStart (p : Priv ν) : Priv ν := { p with running := some p.lastEvent }

/-- One turn of the loop of `rtl839x_l2_notification_handler`; `alloc` is whether `kzalloc`
    succeeds. The switch does not touch the block during the turn. -/
def handlerTurn (p : Priv ν) (e : Nat) (alloc : Bool) : Priv ν :=
  if ¬p.Ready e then { p with lastEvent := e, running := none }
  else if !alloc then { p with running := none }
  else
    { p with
      -- Hand the ring entry back to the switch
      ring := Function.update p.ring e (p.ring e ||| 1#32)
      running := some ((e + 1) % notifyBlocks)
      works := p.works ++ [workOf p.netdev (p.blocks e)] }

/-- `rtl839x_setup_notify_ring_buffer`; `addr` has the addresses of the blocks. -/
def setupNotifyRingBuffer (netdev : ν) (addr : Nat → U32) (blocks : Nat → Block) : Priv ν where
  netdev := netdev
  blocks := blocks
  ring i := addr i ||| 1#32 ||| (if i = notifyBlocks - 1 then 2#32 else 0#32)
  lastEvent := 0
  running := none
  works := []

end HandsomeMod.Native.Rtl839x.Notify
