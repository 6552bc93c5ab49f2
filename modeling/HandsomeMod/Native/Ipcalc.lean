import HandsomeMod.ForStd.Awk

/-!
# `ipcalc.sh`

Embeds the functions and the `BEGIN` rule of the awk program in `ipcalc.sh`. An `unsigned long`
of the interpreter has `w` bits. The fields of an address are digits.
-/

namespace HandsomeMod.Native.Ipcalc

open ForStd ForStd.Awk

variable (w : Nat)

/-- A line of `bitcount`. -/
def bitcountStep (i mask c : Int) : Int := and w (rshift w c i) mask + and w c mask

def bitcount (c : Int) : Int :=
  let c := bitcountStep w 1 0x55555555 c
  let c := bitcountStep w 2 0x33333333 c
  let c := bitcountStep w 4 0x0f0f0f0f c
  let c := bitcountStep w 8 0x00ff00ff c
  bitcountStep w 16 0x0000ffff c

def ip2int (ip : List UInt8) : Int :=
  -- the separator is a dot
  (split ip 0x2e).foldl (fun ret a => or w (lshift w ret 8) (num a)) 0

/-- The loop of `int2ip`, with the turns that are left. -/
def int2ipLoop : Nat → Int → List UInt8 → List UInt8
  | 0, _, ret => ret
  | n + 1, ip, ret => int2ipLoop n (rshift w ip 8) (intText (and w ip 255) ++ ascii "." ++ ret)

def int2ip (ip : Int) : List UInt8 := int2ipLoop w 3 (rshift w ip 8) (intText (and w ip 255))

def compl32 (v : Int) : Int := xor w v 0xffffffff

/-- `compl32(2**(32-int(s))-1)` -/
def maskOf (s : List UInt8) : Int := compl32 w (2 ^ (32 - num s).toNat - 1)

/-- The variables behind the first `if`. -/
structure Vars where
  ipaddr : Int
  netmask : Int
  /-- `ARGV[3]` -/
  argv3 : List UInt8
  /-- `ARGV[4]` -/
  argv4 : List UInt8

def parseArgv (argv : List (List UInt8)) : Vars :=
  let arg (i : Nat) : List UInt8 := argv.getD i []
  let slpos := index (arg 1) 0x2f
  if slpos = 0 then
    { ipaddr := ip2int w (arg 1)
      netmask := if index (arg 2) 0x2e = 0 then maskOf w (arg 2) else ip2int w (arg 2)
      argv3 := arg 3
      argv4 := arg 4 }
  else
    { ipaddr := ip2int w (substr (arg 1) 0 (some (slpos - 1)))
      netmask := maskOf w (substr (arg 1) (slpos + 1) none)
      argv3 := arg 2
      argv4 := arg 3 }

/-- The lines that are printed; `ARGC` is the length of `argv`. -/
def main (argv : List (List UInt8)) : List (List UInt8) :=
  let v := parseArgv w argv
  let network := and w v.ipaddr v.netmask
  let broadcast := or w network (compl32 w v.netmask)
  let start := or w network (and w (ip2int w v.argv3) (compl32 w v.netmask))
  let limit := network + 1
  let start := if start < limit then limit else start
  let stop := start + num v.argv4
  let limit := or w network (compl32 w v.netmask) - 1
  -- the range may not reach the broadcast address
  let stop := if stop > limit then limit else stop
  [ascii "IP=" ++ int2ip w v.ipaddr,
    ascii "NETMASK=" ++ int2ip w v.netmask,
    ascii "BROADCAST=" ++ int2ip w broadcast,
    ascii "NETWORK=" ++ int2ip w network,
    ascii "PREFIX=" ++ intText (32 - bitcount w (compl32 w v.netmask))] ++
  if argv.length > 3 then
    [ascii "START=" ++ int2ip w start, ascii "END=" ++ int2ip w stop]
  else []

end HandsomeMod.Native.Ipcalc
