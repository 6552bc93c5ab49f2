import HandsomeMod.ForStd.Access
import HandsomeMod.ForStd.Bits

/-!
# `mapcalc`

Embeds `package/network/ipv6/map/src/mapcalc.c`: the bit copies, the choice of the delegated
prefix from the `ubus` dump and `main`, which turns every rule argument into a block of
`RULE_<n>_..` lines.

`getsubopt`, `strtoul` and `inet_pton` are libc: a rule is the list of its suboptions with what
these functions returned. A C `int` is an `Int`; where the C arithmetic could overflow
(a negative `prefix4len` or `prefix6len`), the rule is skipped whatever the result. Objects are
memory from their first byte, so that reads past the end of one are visible.
-/

namespace HandsomeMod.Native.Mapcalc

open ForStd

/-! ### Bit copies -/

/-- An `int` passed as a `size_t`. -/
def sizeT (i : Int) : Nat := (i % 2 ^ 64).toNat

/-- `memcmp`, as the difference of the first bytes that differ. -/
def memcmp (a b : Mem) (n : Nat) : Int :=
  match (List.range n).find? fun i => a i != b i with
  | some i => (a i).toNat - (b i).toNat
  | none => 0

def bmemcmp (a b : Mem) (bits : Nat) : Int :=
  let bytes := bits / 8
  let bits := bits % 8
  let res := memcmp a b bytes
  if res = 0 ∧ bits > 0 then
    ((a bytes).toNat >>> (8 - bits) : Nat) - ((b bytes).toNat >>> (8 - bits) : Nat)
  else res

def bmemcpy (a b : Mem) (bits : Nat) : Mem :=
  let bytes := bits / 8
  let bits := bits % 8
  let mask := UInt8.ofNat ((1 <<< (8 - bits)) - 1)
  fun i =>
    if i < bytes then b i
    else if i = bytes ∧ bits > 0 then (a i &&& mask) ||| (~~~mask &&& b i)
    else a i

/-- The object `m` after `n` bytes of `src` were copied to its byte `start`. -/
def memcpyAt (m : Mem) (start : Nat) (src : Mem) (n : Nat) : Mem :=
  fun i => if start ≤ i ∧ i < start + n then src (i - start) else m i

def zeros : Mem := fun _ => 0

def bmemcpys64 (e : Endian) (a b : Mem) (frombits nbits : Nat) : Mem :=
  let frombyte := frombits / 8
  let tobyte := (frombits + nbits) / 8
  let buf := memcpyAt zeros 0 (fun i => b (frombyte + i)) (tobyte - frombyte + 1)
  let word := e.beToCpu 8 ((e.beToCpu 8 (e.load 8 buf) <<< (frombits % 8)) % 2 ^ 64)
  bmemcpy a (memcpyAt buf 0 (e.store 8 word) 8) nbits

/-! ### Rules -/

/-- The variables of `main` that a rule sets. -/
structure Rule where
  lw4o6 : Bool := false
  fmr : Bool := false
  ealen : Int := -1
  prefix4len : Int := 32
  prefix6len : Int := -1
  pdlen : Int := -1
  ipv4prefix : Mem := zeros
  ipv6prefix : Mem := zeros
  pd : Mem := zeros
  offset : Int := -1
  psidlen : Int := -1
  psid : Int := -1
  dmr : Option String := none
  br : Option String := none

/-- The suboptions with a number. -/
inductive NumOpt where
  | ealen
  | prefix4len
  | prefix6len
  | offset
  | psidlen
  | pdlen
  | psid
  deriving Repr, DecidableEq

/-- The largest value that is taken. -/
def NumOpt.limit : NumOpt → Int
  | .ealen => 48
  | .prefix4len => 32
  | .prefix6len => 128
  | .offset => 16
  | .psidlen => 16
  | .pdlen => 128
  | .psid => 65535

def NumOpt.set (r : Rule) (intval : Int) : NumOpt → Rule
  | .ealen => { r with ealen := intval }
  | .prefix4len => { r with prefix4len := intval }
  | .prefix6len => { r with prefix6len := intval }
  | .offset => { r with offset := intval }
  | .psidlen => { r with psidlen := intval }
  | .pdlen => { r with pdlen := intval }
  | .psid => { r with psid := intval }

/-- One suboption as `getsubopt` delivers it: the value of a numeric one is what `strtoul`
    returned and whether it set `errno`, that of an address one what `inet_pton` stored, if it
    returned 1. -/
inductive Opt where
  | type (value : Option String)
  | fmr
  | num (idx : NumOpt) (ul : Nat) (errno : Bool)
  | ipv4prefix (addr : Option Mem)
  | ipv6prefix (addr : Option Mem)
  | pd (addr : Option Mem)
  | dmr (value : Option String)
  | br (value : Option String)
  | invalid

/-- An `unsigned long` assigned to an `int`. -/
def toInt (ul : Nat) : Int := Int.bmod ul (2 ^ 32)

/-- One turn of the suboption loop. -/
def applyOpt (r : Rule) : Opt → Rule
  | .type value => { r with lw4o6 := value == some "lw4o6" }
  | .fmr => { r with fmr := true }
  | .num idx ul errno => if toInt ul ≤ idx.limit ∧ !errno then idx.set r (toInt ul) else r
  | Opt.ipv4prefix addr => { r with ipv4prefix := addr.getD r.ipv4prefix }
  | Opt.ipv6prefix addr => { r with ipv6prefix := addr.getD r.ipv6prefix }
  | .pd addr => { r with pd := addr.getD r.pd }
  | .dmr value => { r with dmr := value }
  | .br value => { r with br := value }
  | .invalid => r

/-- The suboption loop. -/
def parseRule (opts : List Opt) : Rule := opts.foldl applyOpt {}

/-! ### The delegated prefix -/

/-- An entry of `ipv6-prefix` or `ipv6-address`: its `address`, the any address if `inet_pton`
    refuses the text, and its `mask`; `none` for an attribute that is missing. -/
structure PrefixEntry where
  address : Option Mem
  mask : Option Int

/-- An entry of the `ubus` dump; `none` for an attribute that is missing or not of its type. -/
structure Interface where
  interface : Option String
  prefixes : Option (List PrefixEntry)
  addresses : Option (List PrefixEntry)

/-- What a run does not get from its rule arguments. -/
structure Env where
  endian : Endian
  legacy : Bool
  /-- `argv[1]` -/
  iface : String
  dump : List Interface

/-- One turn of the loop of `match_prefix`. -/
def matchEntry (r : Rule) (entry : PrefixEntry) : Rule :=
  match entry.address, entry.mask with
  | some addr, some mask =>
    -- lw4over6 /128-address-as-PD matching madness workaround
    let mask := if r.lw4o6 ∧ mask = 128 then 64 else mask
    if r.pdlen < mask ∧ mask ≥ r.prefix6len ∧
        bmemcmp addr r.ipv6prefix (sizeT r.prefix6len) = 0 then
      { r with pd := bmemcpy r.pd addr (sizeT mask), pdlen := mask }
    else if r.lw4o6 ∧ r.pdlen < r.prefix6len ∧ mask < r.prefix6len ∧
        bmemcmp addr r.ipv6prefix (sizeT mask) = 0 then
      { r with pd := bmemcpy r.pd r.ipv6prefix (sizeT r.prefix6len), pdlen := r.prefix6len }
    else r
  | _, _ => r

def matchPrefix (r : Rule) (cur : Option (List PrefixEntry)) : Rule :=
  (cur.getD []).foldl matchEntry r

/-- The loop over the dump, with the variable `iface` that outlives the rule. -/
def findPd (arg : String) : List Interface → Rule → String → Rule × String
  | [], r, iface => (r, iface)
  | c :: cs, r, iface =>
    match c.interface with
    | none => findPd arg cs r iface
    | some name =>
      if arg ≠ "*" ∧ arg ≠ name then findPd arg cs r iface
      else
        let r := matchPrefix r c.prefixes
        let r := if r.lw4o6 then matchPrefix r c.addresses else r
        if r.pdlen ≥ 0 then (r, name) else findPd arg cs r iface

/-! ### Evaluation of a rule -/

/-- The default for `offset`, and what lw4o6 sets. -/
def setDefaults (legacy : Bool) (r : Rule) : Rule :=
  let r :=
    if r.offset < 0 then { r with offset := if r.lw4o6 then 0 else if legacy then 4 else 6 } else r
  -- LW4over6 doesn't have an EALEN and has no psid-autodetect
  if r.lw4o6 then
    let psidlen := if r.psidlen < 0 then 0 else r.psidlen
    { r with psidlen := psidlen, ealen := psidlen }
  else r

/-- `ealen` and `psidlen` from the other lengths. -/
def deriveLengths (r : Rule) : Rule :=
  let r := if r.ealen < 0 ∧ r.pdlen ≥ 0 then { r with ealen := r.pdlen - r.prefix6len } else r
  if r.psidlen ≤ 0 then
    let psidlen := r.ealen - (32 - r.prefix4len)
    { r with psidlen := if psidlen < 0 then 0 else psidlen, psid := -1 }
  else r

/-- "Skipping invalid or incomplete rule" -/
def isInvalid (r : Rule) : Bool :=
  r.prefix4len < 0 || r.prefix6len < 0 || r.ealen < 0 || r.psidlen > 16 || r.ealen < r.psidlen

/-- `psid16` and `psid` before they are aligned. -/
def readPsid (e : Endian) (r : Rule) : Mem × Int :=
  if r.psid < 0 ∧ r.psidlen ≥ 0 ∧ r.pdlen ≥ 0 then
    let psid16 := bmemcpys64 e zeros r.pd (sizeT (r.prefix6len + r.ealen - r.psidlen))
      (sizeT r.psidlen)
    (psid16, e.beToCpu 2 (e.load 2 psid16))
  else (zeros, r.psid)

/-- `if (psidlen > 0)`: `psid16` holds the PSID, `psid` the PSID in its top bits. -/
def alignPsid (e : Endian) (psidlen : Int) (psid16 : Mem) (psid : Int) : Mem × Int :=
  if psidlen > 0 then
    let psid := psid >>> (16 - psidlen).toNat
    (memcpyAt psid16 0 (e.store 2 (e.beToCpu 2 (psid % 2 ^ 16).toNat)) 2,
      psid * 2 ^ (16 - psidlen).toNat)
  else (psid16, psid)

/-- `ipv4addr` and `addr4len`. A shift by 32 is undefined in C; all 32 bits are then overwritten. -/
def calcIpv4addr (e : Endian) (r : Rule) : Mem × Int :=
  if r.pdlen ≥ 0 ∨ r.ealen = r.psidlen then
    let addr := bmemcpys64 e zeros r.pd (sizeT r.prefix6len) (sizeT (r.ealen - r.psidlen))
    let word := e.beToCpu 4 (e.beToCpu 4 (e.load 4 addr) >>> r.prefix4len.toNat)
    (bmemcpy (memcpyAt addr 0 (e.store 4 word) 4) r.ipv4prefix (sizeT r.prefix4len),
      if r.prefix4len + r.ealen < 32 then r.prefix4len + r.ealen else 32)
  else (zeros, 32)

def calcIpv6addr (legacy : Bool) (r : Rule) (ipv4addr psid16 : Mem) : Mem :=
  let v4offset := if legacy then 9 else 10
  bmemcpy (memcpyAt (memcpyAt zeros v4offset ipv4addr 4) (v4offset + 4) psid16 2) r.pd
    (sizeT r.pdlen)

/-- One turn of the `PORTSETS` loop. -/
def portRange (offset psidlen psid k : Nat) : Option (Nat × Nat) :=
  let start := (k <<< (16 - offset)) ||| (psid >>> offset)
  let stop := start + (1 <<< (16 - offset - psidlen)) - 1
  let start := if start = 0 then 1 else start
  if start ≤ stop then some (start, stop) else none

/-- The ranges of `PORTSETS`. -/
def portRanges (offset psidlen psid : Nat) : List (Nat × Nat) :=
  let first := if offset = 0 then 0 else 1
  (List.range' first ((1 <<< offset) - first)).filterMap (portRange offset psidlen psid)

/-- The values behind a block of `RULE_<n>_..` lines. The lines about the delegated prefix are
    printed when `pdlen` is not negative, `IPV4ADDR` and `ADDR4LEN` when the address is not
    0.0.0.0, `PORTSETS` when there is a list. -/
structure Output where
  fmr : Bool
  ealen : Int
  psidlen : Int
  offset : Int
  prefix4len : Int
  prefix6len : Int
  ipv4prefix : Mem
  ipv6prefix : Mem
  pd : Mem
  pdlen : Int
  iface : String
  ipv6addr : Mem
  ipv4addr : Mem
  addr4len : Int
  portsets : Option (List (Nat × Nat))
  dmr : Option String
  br : Option String

/-- From the accepted lengths to the output; `none` for a non-FMR without matching PD. -/
def evalRule (env : Env) (r : Rule) (iface : String) : Option Output :=
  let (psid16, psid) := readPsid env.endian r
  let (psid16, psid) := alignPsid env.endian r.psidlen psid16 psid
  let (ipv4addr, addr4len) := calcIpv4addr env.endian r
  -- no delegated prefix matches and the rule does not forward
  if r.pdlen < 0 ∧ !r.fmr then none
  else
    some
      { fmr := r.fmr, ealen := r.ealen, psidlen := r.psidlen, offset := r.offset
        prefix4len := r.prefix4len, prefix6len := r.prefix6len
        ipv4prefix := r.ipv4prefix, ipv6prefix := r.ipv6prefix
        pd := r.pd, pdlen := r.pdlen, iface := iface
        ipv6addr := if r.pdlen ≥ 0 then calcIpv6addr env.legacy r ipv4addr psid16 else zeros
        ipv4addr := ipv4addr, addr4len := addr4len
        portsets :=
          if r.psidlen > 0 ∧ psid ≥ 0 then
            some (portRanges r.offset.toNat r.psidlen.toNat psid.toNat)
          else none
        dmr := r.dmr, br := r.br }

/-- A rule after its suboptions are read: its output, if it is not skipped, and `iface`. -/
def calcRule (env : Env) (r : Rule) (iface : String) : Option Output × String :=
  let r := setDefaults env.legacy r
  let (r, iface) := if r.pdlen < 0 then findPd env.iface env.dump r iface else (r, iface)
  let r := deriveLengths r
  if isInvalid r then (none, iface) else (evalRule env r iface, iface)

/-- The `for` loop of `main` over the rules: the blocks of output, numbered from 1 by
    `RULE_<n>`, and the exit status. -/
def calcRules (env : Env) : List (List Opt) → String → List Output × Nat
  | [], _ => ([], 0)
  | opts :: rules, iface =>
    match calcRule env (parseRule opts) iface with
    | (none, iface) => ((calcRules env rules iface).1, 1)
    | (some out, iface) =>
      let (outs, status) := calcRules env rules iface
      (out :: outs, status)

/-- `main` with the dump at hand: `none` is the usage message. -/
def main (env : Env) (rules : List (List Opt)) : Option (List Output × Nat) :=
  if rules.isEmpty then none else some (calcRules env rules env.iface)

/-!
## The accesses of `mapcalc`

The shifts of `package/network/ipv6/map/src/mapcalc.c` behind its check of a rule, and the bytes
that its bit copies touch: `pd` has 16 bytes, the IPv4 address 4 and the PSID 2. The lengths of a
rule that passes the check are not negative and stay as they are as a `size_t`.
-/

/-- `bmemcpy` from an object of `src` bytes to one of `dst`. -/
def bmemcpyAccesses (dst src bits : Nat) : List Access :=
  let bytes := bits / 8
  let bits := bits % 8
  [.bytes 0 bytes src, .bytes 0 bytes dst] ++
    if bits > 0 then [.shift (8 - bits) 32, .bytes bytes 1 src, .bytes bytes 1 dst] else []

/-- `bmemcpys64` from the delegated prefix to an object of `dst` bytes. -/
def bmemcpys64Accesses (dst frombits nbits : Nat) : List Access :=
  let frombyte := frombits / 8
  let tobyte := (frombits + nbits) / 8
  [.bytes frombyte (tobyte - frombyte + 1 : Nat) 16, .bytes 0 (tobyte - frombyte + 1 : Nat) 8,
    .shift (frombits % 8 : Nat) 64] ++ bmemcpyAccesses dst 8 nbits

/-- `readPsid` -/
def readPsidAccesses (r : Rule) : List Access :=
  if r.psid < 0 ∧ r.psidlen ≥ 0 ∧ r.pdlen ≥ 0 then
    bmemcpys64Accesses 2 (r.prefix6len + r.ealen - r.psidlen).toNat r.psidlen.toNat
  else []

/-- `alignPsid` -/
def alignPsidAccesses (psidlen : Int) : List Access :=
  if psidlen > 0 then [.shift (16 - psidlen) 32, .shift (16 - psidlen) 32] else []

/-- `calcIpv4addr` -/
def calcIpv4addrAccesses (r : Rule) : List Access :=
  if r.pdlen ≥ 0 ∨ r.ealen = r.psidlen then
    bmemcpys64Accesses 4 r.prefix6len.toNat (r.ealen - r.psidlen).toNat ++
      [.shift r.prefix4len 32] ++ bmemcpyAccesses 4 4 r.prefix4len.toNat
  else []

/-- The shift of `bmemcpy` in `calcIpv6addr`. -/
def calcIpv6addrAccesses (r : Rule) : List Access :=
  if r.pdlen ≥ 0 then
    if r.pdlen % 8 > 0 then [.shift (8 - r.pdlen % 8) 32] else []
  else []

/-- The `PORTSETS` loop: every turn shifts by the same amounts. -/
def portRangesAccesses (offset psidlen : Int) : List Access :=
  [.shift offset 32, .shift (16 - offset) 32, .shift offset 32, .shift (16 - offset - psidlen) 32]

/-- `evalRule` -/
def evalRuleAccesses (e : Endian) (r : Rule) : List Access :=
  let (psid16, psid) := readPsid e r
  let (_, psid) := alignPsid e r.psidlen psid16 psid
  readPsidAccesses r ++ alignPsidAccesses r.psidlen ++ calcIpv4addrAccesses r ++
    if r.pdlen < 0 ∧ !r.fmr then []
    else
      calcIpv6addrAccesses r ++
        if r.psidlen > 0 ∧ psid ≥ 0 then portRangesAccesses r.offset r.psidlen else []

/-- `calcRule` -/
def calcRuleAccesses (env : Env) (r : Rule) (iface : String) : List Access :=
  let r := setDefaults env.legacy r
  let (r, _) := if r.pdlen < 0 then findPd env.iface env.dump r iface else (r, iface)
  let r := deriveLengths r
  if isInvalid r then [] else evalRuleAccesses env.endian r

end HandsomeMod.Native.Mapcalc
