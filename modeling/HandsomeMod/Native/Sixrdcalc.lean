import HandsomeMod.ForStd.Bits
import HandsomeMod.ForStd.CDecimal

/-!
# `6rdcalc`

Embeds `parse_str` and `main` of `6rdcalc.c`. `inet_pton` and `inet_ntop` are parameters; addresses
are the bytes they fill. An access outside of an address is a fault.
-/

namespace HandsomeMod.Native.Sixrdcalc

open ForStd

inductive Af where
  | inet
  | inet6
  deriving DecidableEq

/-- The bytes of an address. -/
def Af.size : Af → Nat
  | .inet => 4
  | .inet6 => 16

abbrev Addr (af : Af) : Type := Vector UInt8 af.size

/-- The address functions of the C library. -/
structure Inet where
  /-- The address, or what `inet_pton` returns when it is not 1. -/
  inetPton : (af : Af) → List UInt8 → Except Int (Addr af)
  inetNtop : Addr .inet6 → Option (List UInt8)

/-- The ways in which the program ends without a prefix. -/
inductive Stop where
  /-- `print_usage` -/
  | usage
  /-- `print_error` -/
  | error
  /-- An access outside of an address. -/
  | access
  deriving DecidableEq, Repr

/-- `INET_PREFIXSTRLEN` -/
def inetPrefixStrlen : Nat := 16 + 3

/-- `INET6_PREFIXSTRLEN` -/
def inet6PrefixStrlen : Nat := 46 + 4

/-- The largest mask that is accepted. -/
def Af.maskMax : Af → Nat
  | .inet => 32
  | .inet6 => 128

/-- The address and the mask of a string; an `unsigned long` has `w` bits. -/
def parseStr (w : Nat) (libc : Inet) (af : Af) (str : List UInt8) : Except Stop (Addr af × Nat) :=
  match memchr str 0x2f str.length with
  | none => .error .usage
  | some slash =>
    match libc.inetPton af (str.take slash) with
    | .error ret => if ret = 0 then .error .usage else .error .error
    | .ok addr =>
      let mask := (strtoul10 w (str.drop (slash + 1))).1
      if mask > af.maskMax then .error .usage else .ok (addr, mask)

/-- `128 >> (it & 0x07)` -/
def bitMask (it : Nat) : UInt8 := UInt8.ofNat (128 >>> (it % 8))

/-- `*byte & bit` -/
def testBit {n : Nat} (addr : Vector UInt8 n) (it : Nat) : Except Stop Bool :=
  match addr[it >>> 3]? with
  | none => .error .access
  | some byte => .ok (byte &&& bitMask it ≠ 0)

/-- `*byte |= bit` or `*byte &= ~bit` -/
def assignBit {n : Nat} (addr : Vector UInt8 n) (it : Nat) (value : Bool) :
    Except Stop (Vector UInt8 n) :=
  match addr[it >>> 3]? with
  | none => .error .access
  | some byte =>
    .ok (addr.setIfInBounds (it >>> 3)
      (if value then byte ||| bitMask it else byte &&& ~~~bitMask it))

/-- Combine the addresses: `v6` and `v6it` behind the loop. -/
def combineLoop (v4 : Addr .inet) (v6 : Addr .inet6) (v6it v4it : Nat) :
    Except Stop (Addr .inet6 × Nat) :=
  if v4it < 32 then do
    let value ← testBit v4 v4it
    let v6 ← assignBit v6 v6it value
    combineLoop v4 v6 (v6it + 1) (v4it + 1)
  else return (v6, v6it)
termination_by 32 - v4it

/-- Clear remaining bits. -/
def clearLoop (v6 : Addr .inet6) (v6it : Nat) : Except Stop (Addr .inet6) :=
  if v6it < 128 then do
    let v6 ← assignBit v6 v6it false
    clearLoop v6 (v6it + 1)
  else return v6
termination_by 128 - v6it

/-- The two loops of `main`. -/
def subnet (v6 : Addr .inet6) (v6it : Nat) (v4 : Addr .inet) (v4it : Nat) :
    Except Stop (Addr .inet6) := do
  let (v6, v6it) ← combineLoop v4 v6 v6it v4it
  clearLoop v6 v6it

/-- `v6str`, which is cut and terminated. -/
def v6str (arg : List UInt8) : List UInt8 := arg.take (inet6PrefixStrlen - 1)

/-- `v4str`. It is not terminated behind an argument that fills it: the string goes on with what
    is `behind` the array. -/
def v4str (behind arg : List UInt8) : List UInt8 :=
  if arg.length < inetPrefixStrlen then arg else arg.take inetPrefixStrlen ++ behind

/-- What is printed. -/
def main (w : Nat) (libc : Inet) (behind : List UInt8) (argv : List (List UInt8)) :
    Except Stop (List UInt8) :=
  match argv with
  | [_, arg6, arg4] => do
    let (v6, v6it) ← parseStr w libc .inet6 (v6str arg6)
    let (v4, v4it) ← parseStr w libc .inet (v4str behind arg4)
    let mask := 32 - v4it + v6it
    -- the IPv4 bits do not fit behind the prefix
    if mask > 128 then .error .usage
    else
      let v6 ← subnet v6 v6it v4 v4it
      match libc.inetNtop v6 with
      | none => .error .error
      | some text => return text ++ ascii "/" ++ decText mask ++ ascii "\n"
  | _ => .error .usage

end HandsomeMod.Native.Sixrdcalc
