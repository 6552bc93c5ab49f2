import HandsomeMod.Native.Rtl83xx

/-!
# Forwarding database of the RTL838x

`rtl83xx_port_fdb_add`, `rtl83xx_port_fdb_del` and `rtl83xx_port_fdb_dump` of `dsa.c` over the
L2 table registers: a hash table of 2048 buckets with four entries each and a CAM of 64
entries. An entry is three words, read and written by commands to `RTL838X_TBL_ACCESS_L2_CTRL`.
-/

namespace HandsomeMod.Native.Rtl83xx.Fdb

/-- The registers `RTL838X_TBL_ACCESS_L2_DATA(0..2)`, or an entry of a table. -/
structure Words where
  r0 : U32
  r1 : U32
  r2 : U32
  deriving DecidableEq

/-- The two tables and the data registers. -/
structure L2 where
  hash : BitVec 13 → Words
  cam : BitVec 6 → Words
  data : Words

/-- A MAC address, its first octet most significant. -/
abbrev Mac := BitVec 48

abbrev Vid := BitVec 12

/-- `struct rtl838x_l2_entry` -/
structure L2Entry where
  mac : Mac
  vid : BitVec 12
  rvid : BitVec 12
  port : BitVec 5
  isStatic : Bool
  valid : Bool

/-! ### Table commands -/

/-- What the switch does on a write to `RTL838X_TBL_ACCESS_L2_CTRL`: bit 16 executes, bit 15 reads,
    bits 13 and 14 choose the table. -/
def L2.exec (t : L2) (cmd : U32) : L2 :=
  if !cmd.getLsbD 16 then t
  else if cmd.getLsbD 14 then t
  else if cmd.getLsbD 13 then
    if cmd.getLsbD 15 then { t with data := t.cam (cmd.setWidth 6) }
    else { t with cam := Function.update t.cam (cmd.setWidth 6) t.data }
  else
    if cmd.getLsbD 15 then { t with data := t.hash (cmd.setWidth 13) }
    else { t with hash := Function.update t.hash (cmd.setWidth 13) t.data }

/-- `rtl83xx_write_cam` -/
def writeCam (t : L2) (idx : U32) (r : Words) : L2 :=
  let cmd := bit32 16 -- Execute cmd
    ||| bit32 15 -- Read
    ||| bit32 13 -- Table type 0b01
    ||| (idx &&& 0x3f#32)
  { t with data := r }.exec cmd

/-- `rtl83xx_write_hash`, which does not look at its argument `r` -/
def writeHash (t : L2) (idx : U32) (_r : Words) : L2 :=
  let cmd := bit32 16 -- Execute cmd
    ||| (0#32 <<< 15) -- Write
    ||| (0#32 <<< 13) -- Table type 0b00
    ||| (idx &&& 0x1fff#32)
  { t with data := ⟨0, 0, 0⟩ }.exec cmd

/-! ### Entries -/

/-- The fields that both read functions take from the three words. -/
def decode (r : Words) : L2Entry where
  mac := (r.r1 >>> 20).setWidth 8 ++ (r.r1 >>> 12).setWidth 8 ++ (r.r1 >>> 4).setWidth 8 ++
    (((r.r1 &&& 0xf#32) <<< 4) ||| (r.r2 >>> 28)).setWidth 8 ++ (r.r2 >>> 20).setWidth 8 ++
    (r.r2 >>> 12).setWidth 8
  isStatic := (r.r0 >>> 19).getLsbD 0
  vid := r.r0.setWidth 12
  rvid := r.r2.setWidth 12
  port := (r.r0 >>> 12).setWidth 5
  valid := r.r0 >>> 17 != 0#32

/-- The number that both read functions return, which the callers compare. -/
def entryOf (r : Words) : U64 :=
  (r.r1.setWidth 64 <<< 32) ||| (r.r2 &&& 0xfffff000#32).setWidth 64 |||
    (r.r0 &&& 0xfff#32).setWidth 64

/-- `rtl838x_read_l2_entry_using_hash`. What it leaves in the data registers is overwritten before
    the next command that stores them. -/
def readL2EntryUsingHash (t : L2) (hash position : U32) : U64 × L2Entry :=
  let idx := (0#32 <<< 14) ||| (hash <<< 2) ||| position
  let cmd := bit32 16 -- Execute cmd
    ||| bit32 15 -- Read
    ||| (0#32 <<< 13) -- Table type 0b00
    ||| (idx &&& 0x1fff#32)
  (entryOf (t.exec cmd).data, decode (t.exec cmd).data)

/-- `rtl838x_read_cam` -/
def readCam (t : L2) (idx : U32) : U64 × L2Entry :=
  let cmd := bit32 16 -- Execute cmd
    ||| bit32 15 -- Read
    ||| bit32 13 -- Table type 0b01
    ||| (idx &&& 0x3f#32)
  (entryOf (t.exec cmd).data, decode (t.exec cmd).data)

/-- `rtl838x_hash`; `algo` is bit 0 of `RTL838X_L2_CTRL_0` -/
def rtl838xHash (algo : Bool) (seed : U64) : U32 :=
  if algo then
    -- with `algo` set each part is rotated before they are mixed
    let h1 := ((seed >>> 11) &&& 0x7ff#64).setWidth 32
    let h1 := ((h1 &&& 0x1f#32) <<< 6) ||| ((h1 >>> 5) &&& 0x3f#32)
    let h2 := ((seed >>> 33) &&& 0x7ff#64).setWidth 32
    let h2 := ((h2 &&& 0x3f#32) <<< 5) ||| ((h2 >>> 6) &&& 0x1f#32)
    let h3 := ((seed >>> 44) &&& 0x7ff#64).setWidth 32
    let h3 := ((h3 &&& 0x7f#32) <<< 4) ||| ((h3 >>> 7) &&& 0xf#32)
    let h := h1 ^^^ h2 ^^^ h3 ^^^ ((seed >>> 55) &&& 0x1ff#64).setWidth 32
    h ^^^ (((seed >>> 22) &&& 0x7ff#64) ^^^ (seed &&& 0x7ff#64)).setWidth 32
  else
    (((seed >>> 55) &&& 0x1ff#64) ^^^ ((seed >>> 44) &&& 0x7ff#64) ^^^
      ((seed >>> 33) &&& 0x7ff#64) ^^^ ((seed >>> 22) &&& 0x7ff#64) ^^^
      ((seed >>> 11) &&& 0x7ff#64) ^^^ (seed &&& 0x7ff#64)).setWidth 32

/-- `rtl83xx_hash_key` on the RTL8380 -/
def hashKey (algo : Bool) (mac : U64) (vid : U32) : U32 :=
  rtl838xHash algo ((mac <<< 12) ||| vid.setWidth 64)

/-! ### Operations -/

def enoent : Int := 2
def enotsupp : Int := 524

/-- The comparison of an entry with a MAC address and a VLAN. -/
def sameKey (entry mac : U64) (vid : Vid) : Bool :=
  entry &&& 0x0fffffffffffffff#64 == ((mac <<< 12) ||| vid.setWidth 64)

/-- The words that `rtl83xx_port_fdb_add` makes. -/
def addWords (port : Nat) (mac : U64) (vid : Vid) : Words where
  -- Aging and port
  r0 := (3#32 <<< 17) ||| (BitVec.ofNat 32 port <<< 12) ||| vid.setWidth 32
  r1 := (mac >>> 16).setWidth 32
  -- rvid = 0
  r2 := ((mac &&& 0xffff#64) <<< 12).setWidth 32

/-- The first position of a hash bucket whose entry is accepted. -/
def findHash (t : L2) (key : U32) (accept : U64 → L2Entry → Bool) : Option Nat :=
  (List.range 4).find? fun i =>
    let (entry, e) := readL2EntryUsingHash t key (BitVec.ofNat 32 i)
    accept entry e

/-- The first position of the CAM whose entry is accepted. -/
def findCam (t : L2) (accept : U64 → L2Entry → Bool) : Option Nat :=
  (List.range 64).find? fun i =>
    let (entry, e) := readCam t (BitVec.ofNat 32 i)
    accept entry e

/-- `(key << 2) | i` -/
def bucketIdx (key : U32) (i : Nat) : U32 := (key <<< 2) ||| BitVec.ofNat 32 i

/-- `rtl83xx_port_fdb_add`: the return value and the tables -/
def portFdbAdd (algo : Bool) (t : L2) (port : Nat) (addr : Mac) (vid : Vid) : Int × L2 :=
  let mac := addr.setWidth 64
  let key := hashKey algo mac (vid.setWidth 32)
  match findHash t key fun entry e => !e.valid || sameKey entry mac vid with
  | some i => (0, writeHash t (bucketIdx key i) (addWords port mac vid))
  | none =>
    -- Hash buckets full, try CAM
    match findCam t fun entry e => !e.valid || sameKey entry mac vid with
    | some i => (0, writeCam t (BitVec.ofNat 32 i) (addWords port mac vid))
    | none => (-enotsupp, t)

/-- `rtl83xx_port_fdb_del` -/
def portFdbDel (algo : Bool) (t : L2) (addr : Mac) (vid : Vid) : Int × L2 :=
  let mac := addr.setWidth 64
  let key := hashKey algo mac (vid.setWidth 32)
  match findHash t key fun entry e => e.valid && sameKey entry mac vid with
  | some i => (0, writeHash t (bucketIdx key i) ⟨0, 0, 0⟩)
  | none =>
    -- Check CAM for spillover from hash buckets
    match findCam t fun entry _ => sameKey entry mac vid with
    | some i => (0, writeCam t (BitVec.ofNat 32 i) ⟨0, 0, 0⟩)
    | none => (-enoent, t)

/-- `priv->fib_entries` -/
def fibEntries : Nat := 8192

/-- `rtl83xx_port_fdb_dump`: what it calls `cb` with, for a user port of at most five bits -/
def portFdbDump (t : L2) (port : Nat) : List (Mac × Vid × Bool) :=
  let report (e : L2Entry) := if e.valid ∧ e.port.toNat = port then
    some (e.mac, e.vid, e.isStatic) else none
  (List.range fibEntries).filterMap (fun i =>
      report (readL2EntryUsingHash t (BitVec.ofNat 32 (i >>> 2)) (BitVec.ofNat 32 (i &&& 3))).2) ++
    (List.range 64).filterMap fun i => report (readCam t (BitVec.ofNat 32 i)).2

inductive Call where
  | add (port : Nat) (addr : Mac) (vid : Vid)
  | del (addr : Mac) (vid : Vid)

def call (algo : Bool) (t : L2) : Call → Int × L2
  | .add port addr vid => portFdbAdd algo t port addr vid
  | .del addr vid => portFdbDel algo t addr vid

end HandsomeMod.Native.Rtl83xx.Fdb
