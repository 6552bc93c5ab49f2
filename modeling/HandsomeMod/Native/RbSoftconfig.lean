import HandsomeMod.ForStd.CDecimal
import HandsomeMod.ForStd.CText
import HandsomeMod.ForStd.Crc
import HandsomeMod.ForStd.Mem

/-!
# RouterBOOT `soft_config`

Embeds the stores of the tags and of `commit` in `rb_softconfig.c`, one step for each part that
holds the lock. The part behind `mtdfail`, which does not hold it, is a step too. What the flash
driver does is told by the step: it succeeds, or it fails and leaves anything behind.
-/

namespace HandsomeMod.Native.RbSoftconfig

open ForStd

inductive Errno where
  | EINVAL
  | ERANGE
  | EOPNOTSUPP
  | EACCES
  | ENOENT
  deriving DecidableEq, Repr

/-- `sysfs_streq` -/
def sysfsStreq (s1 s2 : List UInt8) : Bool := s1 == s2 || s2 == s1 ++ [10] || s1 == s2 ++ [10]

/-- `kstrtobool`, or none for `-EINVAL` -/
def kstrtobool (s : List UInt8) : Option Bool :=
  match s with
  | c :: s =>
    if c ∈ ascii "yY1" then some true
    else if c ∈ ascii "nN0" then some false
    else if c ∈ ascii "oO" then
      match s with
      | d :: _ =>
        if d ∈ ascii "nN" then some true else if d ∈ ascii "fF" then some false else none
      | [] => none
    else none
  | [] => none

/-- `kstrtou32` with base 10 -/
def kstrtou32 (s : List UInt8) : Except Errno Nat :=
  let s := if s.head? = some 0x2b then s.tail else s
  let ds := s.takeWhile isDigit
  let rest := s.dropWhile isDigit
  if ds = [] then .error .EINVAL
  else if 2 ^ 32 ≤ decimal ds then .error .ERANGE
  else if rest = [] ∨ rest = [10] then .ok (decimal ds)
  else .error .EINVAL

/-- `struct sc_u32tvs` -/
structure U32tvs where
  val : Nat
  str : String

/-- `sc_tag_store_u32tvs`, up to the lock; no `tvs` for `-EOPNOTSUPP` -/
def tagStoreU32tvs (pldLen : Nat) (buf : List UInt8) : Option (List U32tvs) → Except Errno Nat
  | none => .error .EOPNOTSUPP
  | some tvs =>
    if 4 ≠ pldLen then .error .EINVAL
    else
      match tvs.find? fun tv => sysfsStreq buf (ascii tv.str) with
      | some tv => .ok tv.val
      | none => .error .EINVAL

/-- `sc_tag_store_boolts`, up to the lock -/
def tagStoreBoolts (strfalse strtrue : String) (pldLen : Nat) (buf : List UInt8) :
    Except Errno Nat :=
  if 4 ≠ pldLen then .error .EINVAL
  else if sysfsStreq buf (ascii strfalse) then .ok 0
  else if sysfsStreq buf (ascii strtrue) then .ok 1
  else .error .EINVAL

def uartspeeds : List U32tvs :=
  [⟨8, "off"⟩, ⟨7, "1200"⟩, ⟨6, "2400"⟩, ⟨5, "4800"⟩, ⟨4, "9600"⟩, ⟨3, "19200"⟩, ⟨2, "38400"⟩,
    ⟨1, "57600"⟩, ⟨0, "115200"⟩]

def bootdevices : List U32tvs :=
  [⟨0, "eth"⟩, ⟨1, "flasheth"⟩, ⟨3, "ethonce"⟩, ⟨5, "flash"⟩, ⟨7, "cfg"⟩, ⟨8, "cfgonce"⟩]

/-- `sc_tag_store_bootdelays`, up to the lock -/
def tagStoreBootdelays (pldLen : Nat) (buf : List UInt8) : Except Errno Nat :=
  if 4 ≠ pldLen then .error .EINVAL
  else do
    let data ← kstrtou32 buf
    if data < 1 ∨ 9 < data then .error .EINVAL else .ok data

def cpufreqIndexesAth79_9x : List U32tvs :=
  [⟨0 <<< 3, "a"⟩, ⟨1 <<< 3, "b"⟩, ⟨2 <<< 3, "c"⟩, ⟨3 <<< 3, "d"⟩, ⟨4 <<< 3, "e"⟩, ⟨5 <<< 3, "f"⟩]

def cpufreqIndexesAth79_7x : List U32tvs :=
  [⟨(0 * 9) <<< 4, "a"⟩, ⟨(1 * 9) <<< 4, "b"⟩, ⟨(2 * 9) <<< 4, "c"⟩, ⟨(3 * 9) <<< 4, "d"⟩,
    ⟨(4 * 9) <<< 4, "e"⟩, ⟨(5 * 9) <<< 4, "f"⟩, ⟨(6 * 9) <<< 4, "g"⟩, ⟨(7 * 9) <<< 4, "h"⟩]

/-- The machine, as far as the driver asks for it. -/
structure Soc where
  isAth79 : Bool
  isAr7161 : Bool
  isAr71xx : Bool
  isAr724x : Bool
  isAr9344 : Bool
  isQca953x : Bool
  isQca9556 : Bool
  isQca9558 : Bool

/-- `sc_tag_cpufreq_ath79_arraysize`, or none for `-EOPNOTSUPP` -/
def Soc.cpufreqArraysize (soc : Soc) : Option Nat :=
  if soc.isAr7161 then some (7 + 1)
  else if soc.isAr724x then some (3 + 1)
  else if soc.isAr9344 then some (5 + 1)
  else if soc.isQca953x then some (4 + 1)
  else if soc.isQca9556 then some (2 + 1)
  else if soc.isQca9558 then some (3 + 1)
  else none

/-- The `tvs` of `sc_tag_store_cpufreq_indexes`; a machine that is no ATH79 has no such function. -/
def Soc.cpufreqIndexes (soc : Soc) : Option (List U32tvs) :=
  if soc.isAth79 then
    let tvs := if soc.isAr71xx ∨ soc.isAr724x then cpufreqIndexesAth79_7x else cpufreqIndexesAth79_9x
    soc.cpufreqArraysize.map fun n => tvs.take n
  else none

/-- `sc_attrs` -/
inductive Attr where
  | uartSpeed
  | bootDelay
  | bootDevice
  | bootKey
  | cpuMode
  | biosVersion
  | bootProto
  | cpufreqIndex
  | booter
  | silentBoot
  deriving DecidableEq, Repr

/-- The `tstore` of an attribute. -/
def Attr.tstore (soc : Soc) (pldLen : Nat) (buf : List UInt8) : Attr → Except Errno Nat
  | .uartSpeed => tagStoreU32tvs pldLen buf (some uartspeeds)
  | .bootDelay => tagStoreBootdelays pldLen buf
  | .bootDevice => tagStoreU32tvs pldLen buf (some bootdevices)
  | .bootKey => tagStoreBoolts "any" "del" pldLen buf
  | .cpuMode => tagStoreBoolts "powersave" "regular" pldLen buf
  | .biosVersion => .error .EOPNOTSUPP
  | .bootProto => tagStoreBoolts "bootp" "dhcp" pldLen buf
  | .cpufreqIndex => tagStoreU32tvs pldLen buf soc.cpufreqIndexes
  | .booter => tagStoreBoolts "regular" "backup" pldLen buf
  | .silentBoot => tagStoreBoolts "off" "on" pldLen buf

/-- What does not change behind `rb_softconfig_init`. -/
structure Config where
  endian : Endian
  soc : Soc
  hasWriteSupport : Bool
  /-- `sc_buflen`, which is `mtd->size` -/
  buflen : Nat
  pldOfs : Attr → Nat
  pldLen : Attr → Nat

/-- `sc_attr_store`, up to the lock -/
def attrStore (k : Config) (capable : Bool) (a : Attr) (buf : List UInt8) : Except Errno Nat :=
  if ¬k.hasWriteSupport then .error .EOPNOTSUPP
  else if ¬capable then .error .EACCES
  else if a = .biosVersion then .error .EOPNOTSUPP
  else if k.pldLen a = 0 then .error .ENOENT
  else a.tstore k.soc (k.pldLen a) buf

/-! ### The buffer -/

/-- `*(u32 *)(m + pos) = v` -/
def putU32 (e : Endian) (m : Mem) (pos v : Nat) : Mem := fun a =>
  if pos ≤ a ∧ a < pos + 4 then e.store 4 v (a - pos) else m a

/-- `RB_SC_CRC32_OFFSET` -/
def crc32Offset : Nat := 4

/-- `RB_SC_SETCRC` -/
def setCrc (e : Endian) (m : Mem) (crc : Nat) : Mem := putU32 e m crc32Offset crc

/-- `RB_SC_CLRCRC` -/
def clrCrc (e : Endian) (m : Mem) : Mem := setCrc e m 0

/-- `RB_SC_GETCRC` -/
def getCrc (e : Endian) (m : Mem) : Nat := e.load 4 fun i => m (crc32Offset + i)

/-- `~crc32(~0, m, len)` -/
def crc32 (m : Mem) (len : Nat) : Nat := (~~~Crc.accumulate 0xffffffff (bytesAt m 0 len)).toNat

/-! ### The tasks -/

/-- Where a task is in `sc_commit_store`. -/
inductive Pc where
  /-- Not in it. -/
  | idle
  /-- In front of the write lock. -/
  | locking (flush : Bool)
  /-- At `mtdfail`, or on the way to it. -/
  | mtdfail
  deriving DecidableEq, Repr

structure St (τ : Type) where
  /-- `sc_buf` -/
  buf : Mem
  flash : Mem
  pc : τ → Pc

/-- What an access to the flash does: all that was asked for, or less, and then it leaves anything
    where it writes to. -/
inductive Access where
  | done
  | failed (left : Mem)

inductive Event (τ : Type) where
  /-- A store to an attribute. -/
  | store (t : τ) (a : Attr) (capable : Bool) (buf : List UInt8)
  /-- The first part of `sc_commit_store`; `found` tells whether there is the partition. -/
  | commit (t : τ) (buf : List UInt8) (found : Bool)
  /-- The locked part with a false input, and what `mtd_read` does. -/
  | reread (t : τ) (read : Access)
  /-- The locked part with a true input, and what `mtd_erase` and `mtd_write` do. -/
  | flush (t : τ) (erase write : Access)
  /-- `RB_SC_CLRCRC` at `mtdfail` -/
  | clear (t : τ)

variable {τ : Type} [DecidableEq τ]

/-- Task `t` goes on. -/
def St.goto (s : St τ) (t : τ) (pc : Pc) : St τ := { s with pc := Function.update s.pc t pc }

/-- The locked part of `sc_commit_store`, a false input. -/
def St.reread (s : St τ) (t : τ) : Access → St τ
  | .done => { s with buf := s.flash }.goto t .idle
  | .failed left => { s with buf := left }.goto t .mtdfail

/-- The locked part of `sc_commit_store`, a true input. -/
def St.flush (k : Config) (s : St τ) (t : τ) (erase write : Access) : St τ :=
  -- CRC is already null when we reach this point
  let buf := setCrc k.endian s.buf (crc32 s.buf k.buflen)
  match erase with
  | .failed left => { s with buf, flash := left }.goto t .mtdfail
  | .done =>
    match write with
    | .failed left => { s with buf, flash := left }.goto t .mtdfail
    | .done => { s with buf, flash := buf }.goto t .idle

/-- One step, if its task is at it. -/
def step (k : Config) (s : St τ) : Event τ → Option (St τ)
  | .store t a capable buf =>
    if s.pc t ≠ .idle then none
    else
      match attrStore k capable a buf with
      -- a value that is refused changes nothing
      | .error _ => some s
      | .ok v => some { s with buf := clrCrc k.endian (putU32 k.endian s.buf (k.pldOfs a) v) }
  | .commit t buf found =>
    if s.pc t ≠ .idle then none
    else if ¬k.hasWriteSupport then some s
    -- NO-OP
    else if getCrc k.endian s.buf ≠ 0 then some s
    else
      match kstrtobool buf with
      | none => some s
      | some flush => if found then some (s.goto t (.locking flush)) else some s
  -- a 0 written to `commit` reads the buffer back from flash
  | .reread t read => if s.pc t = .locking false then some (s.reread t read) else none
  | .flush t erase write => if s.pc t = .locking true then some (s.flush k t erase write) else none
  | .clear t =>
    if s.pc t = .mtdfail then some ({ s with buf := clrCrc k.endian s.buf }.goto t .idle) else none

/-- `sc_commit_show` -/
def commitShow (k : Config) (s : St τ) : String :=
  if getCrc k.endian s.buf ≠ 0 then "clean\n" else "dirty\n"

/-- The end of `sc_commit_store`. -/
def commitEnd (k : Config) (s : St τ) (t : τ) : Option (St τ) :=
  if s.pc t = .mtdfail then step k s (.clear t) else some s

/-- The whole of `sc_commit_store` with no other task in between, and whether it writes to the
    flash. -/
def commitStore (k : Config) (s : St τ) (t : τ) (buf : List UInt8) (found : Bool)
    (read erase write : Access) : Option (St τ × Bool) := do
  let s ← step k s (.commit t buf found)
  match s.pc t with
  | .locking true => do
    let s ← step k s (.flush t erase write)
    let s ← commitEnd k s t
    some (s, true)
  | .locking false => do
    let s ← step k s (.reread t read)
    let s ← commitEnd k s t
    some (s, false)
  | _ => some (s, false)

end HandsomeMod.Native.RbSoftconfig
