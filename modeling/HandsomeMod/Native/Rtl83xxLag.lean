import HandsomeMod.Native.Rtl83xx

/-!
# Link aggregation groups of the RTL83xx

`rtl83xx_handle_changeupper`, `rtl83xx_lag_add` and `rtl83xx_lag_del` of `common.c`, for the four
switch families with their port register accessors.
-/

namespace HandsomeMod.Native.Rtl83xx.Lag

/-- `family_id` -/
inductive Family where
  | rtl8380
  | rtl8390
  | rtl9300
  | rtl9310
  deriving DecidableEq

/-- `n_lags`, as `rtl83xx_sw_probe` sets it -/
def Family.nLags : Family → Nat
  | .rtl8380 => 8
  | .rtl8390 => 16
  | .rtl9300 => 16
  | .rtl9310 => 16

/-- `cpu_port` -/
def Family.cpuPort : Family → Nat
  | .rtl8380 => 28
  | .rtl8390 => 52
  | .rtl9300 => 28
  | .rtl9310 => 56

/-! ### Member registers -/

/-- The registers of 32 bits at byte offsets from `TRK_MBR_CTR`. -/
abbrev Regs := Nat → U32

/-- `trk_mbr_ctr`, from `TRK_MBR_CTR` on -/
def Family.trkMbrCtr : Family → Nat → Nat
  | .rtl8380, group => group <<< 2
  | .rtl8390, group => group <<< 3
  | .rtl9300, group => group <<< 2
  | .rtl9310, group => group <<< 2

/-- `rtl839x_mask_port_reg_be` -/
def rtl839xMaskPortRegBe (clear set : U64) (reg : Nat) (r : Regs) : Regs :=
  let r := Function.update r reg
    (swW32Mask ((clear >>> 32).setWidth 32) ((set >>> 32).setWidth 32) (r reg))
  Function.update r (reg + 4) (swW32Mask ((clear &&& 0xffffffff#64).setWidth 32)
    ((set &&& 0xffffffff#64).setWidth 32) (r (reg + 4)))

/-- `rtl839x_get_port_reg_be` -/
def rtl839xGetPortRegBe (reg : Nat) (r : Regs) : U64 :=
  ((r reg).setWidth 64 <<< 32) ||| (r (reg + 4)).setWidth 64

/-- `mask_port_reg_be` -/
def Family.maskPortRegBe (f : Family) (clear set : U64) (reg : Nat) (r : Regs) : Regs :=
  match f with
  | .rtl8380 | .rtl9300 => Function.update r reg (maskPortReg clear set (r reg))
  | .rtl8390 | .rtl9310 => rtl839xMaskPortRegBe clear set reg r

/-- `get_port_reg_be` -/
def Family.getPortRegBe (f : Family) (reg : Nat) (r : Regs) : U64 :=
  match f with
  | .rtl8380 | .rtl9300 => getPortReg (r reg)
  | .rtl8390 | .rtl9310 => rtl839xGetPortRegBe reg r

/-! ### State -/

/-- `struct dsa_port`; `slave` may be `NULL`. -/
structure DsaPort (δ : Type) where
  slave : Option δ
  index : Nat

/-- What does not change after the probe: the family, `ports[j].dp`, which is `NULL` for a port
    without a PHY node, and `netif_is_lag_master`. -/
structure Switch (δ : Type) where
  family : Family
  dp : Nat → Option (DsaPort δ)
  index_eq : ∀ j port, dp j = some port → port.index = j
  isLagMaster : δ → Bool

/-- The fields of `struct rtl838x_switch_priv` for link aggregation, and the member registers. -/
structure Priv (δ : Type) where
  lagDevs : Nat → Option δ
  lagsPortMembers : Nat → U64
  regs : Regs

inductive Errno where
  | einval
  | enospc

/-! ### Changes of a group -/

variable {δ : Type}

/-- `rtl83xx_lag_add` -/
def lagAdd (f : Family) (s : Priv δ) (group port : Nat) : Except Errno (Priv δ) :=
  if f.nLags ≤ group then .error .einval
  else if f.cpuPort ≤ port then .error .einval
  else
    -- the bit is that of the group's number, not of the port
    let i := (List.range f.nLags).findIdx fun i => s.lagsPortMembers i &&& bitUll i != 0#64
    if i ≠ f.nLags then .error .enospc
    else
      .ok { s with
        regs := f.maskPortRegBe 0#64 (bitUll port) (f.trkMbrCtr group) s.regs
        lagsPortMembers :=
          Function.update s.lagsPortMembers group (s.lagsPortMembers group ||| bitUll port) }

/-- `rtl83xx_lag_del` -/
def lagDel (f : Family) (s : Priv δ) (group port : Nat) : Except Errno (Priv δ) :=
  if f.nLags ≤ group then .error .einval
  else if f.cpuPort ≤ port then .error .einval
  else if s.lagsPortMembers group &&& bitUll port = 0#64 then .error .enospc
  else
    .ok { s with
      regs := f.maskPortRegBe (bitUll port) 0#64 (f.trkMbrCtr group) s.regs
      lagsPortMembers :=
        Function.update s.lagsPortMembers group (s.lagsPortMembers group &&& ~~~bitUll port) }

/-! ### Notifications -/

/-- `NETDEV_CHANGEUPPER` for the device `ndev` -/
structure Changeupper (δ : Type) where
  ndev : δ
  upper : δ
  linking : Bool

/-- What `rtl83xx_handle_changeupper` ends with: `err`, which it drops, the indices at which it
    accessed `lag_devs`, and the state. -/
structure Outcome (δ : Type) where
  err : Option Errno
  accessed : List Nat
  priv : Priv δ

variable [DecidableEq δ]

/-- The search for the port of `ndev`. The result is `none` at an access through a `NULL` `dp`. -/
def findPort (ndev : δ) : List (Option (DsaPort δ)) → Option (Option (DsaPort δ))
  | [] => some none
  | none :: _ => none
  | some port :: rest =>
    if port.slave = some ndev then some (some port) else findPort ndev rest

/-- The search for the slot of `upper`: the first that is free or has it. -/
def findSlot (f : Family) (s : Priv δ) (upper : δ) : Nat :=
  (List.range f.nLags).findIdx fun i => (s.lagDevs i).isNone || decide (s.lagDevs i = some upper)

/-- `rtl83xx_handle_changeupper`; `none` is an access through a `NULL` pointer. -/
def handleChangeupper (sw : Switch δ) (s : Priv δ) (info : Changeupper δ) :
    Option (Outcome δ) :=
  if !sw.isLagMaster info.upper then some { err := none, accessed := [], priv := s }
  else
    let i := findSlot sw.family s info.upper
    let searched := List.range (min (i + 1) sw.family.nLags)
    match findPort info.ndev ((List.range sw.family.cpuPort).map sw.dp) with
    -- a port without `dp` is a null pointer
    | none => none
    | some none => some { err := some .einval, accessed := searched, priv := s }
    | some (some port) =>
      let accessed := searched ++ [i]
      if info.linking then
        -- the slot is claimed before the port is added
        let s := if (s.lagDevs i).isNone then
            { s with lagDevs := Function.update s.lagDevs i (some info.upper) }
          else s
        match lagAdd sw.family s i port.index with
        | .error _ => some { err := some .einval, accessed := accessed, priv := s }
        | .ok s => some { err := none, accessed := accessed, priv := s }
      else
        -- the error for a slot without a master is overwritten
        match lagDel sw.family s i port.index with
        | .error _ => some { err := some .einval, accessed := accessed, priv := s }
        | .ok s =>
          let s := if s.lagsPortMembers i = 0#64 then
              { s with lagDevs := Function.update s.lagDevs i none }
            else s
          some { err := none, accessed := accessed, priv := s }

/-- A notification; after an access through a `NULL` pointer nothing is known to have changed. -/
def step (sw : Switch δ) (s : Priv δ) (info : Changeupper δ) : Priv δ :=
  ((handleChangeupper sw s info).map Outcome.priv).getD s

end HandsomeMod.Native.Rtl83xx.Lag
