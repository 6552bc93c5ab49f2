import HandsomeMod.ForStd.Mem

/-!
# Extracting calibration data

Embeds `inf` of `fritz_cal_extract.c`. What `inflate` delivers is a parameter, call by call. Reading
the source and writing to the destination succeed, and so does `inflateInit`; a read outside of
`out` is a fault.
-/

namespace HandsomeMod.Native.FritzCal

open ForStd

/-- `CHUNK` -/
def chunk : Nat := 1024

/-- What `inflate` returns; `Z_STREAM_ERROR` is for a state that was clobbered. -/
inductive InflateRet where
  | ok
  | streamEnd
  | needDict
  | dataError
  | memError
  | bufError
  deriving DecidableEq, Repr

/-- What `inf` returns. -/
inductive InfRet where
  | ok
  | errno
  | dataError
  | memError
  deriving DecidableEq, Repr

inductive Fault where
  | outOfBounds
  deriving DecidableEq, Repr

/-- A call of `inflate`: the bytes that it puts to `out`, and what it returns. -/
structure Portion where
  out : List UInt8
  ret : InflateRet

/-- The calls of `inflate` behind an `fread`. All but the last one fill `out`. -/
structure Feed where
  fulls : List Portion
  last : Portion
  length_fulls : ∀ p ∈ fulls, p.out.length = chunk
  length_last : last.out.length < chunk

/-- A type `size_t`. -/
structure SizeT where
  bits : Nat
  bits_ge : 16 ≤ bits

variable {size : SizeT}

/-- The variables of `inf`. `dest` holds the bytes that were written, each with its place in the
inflated data, and `totalOut` counts these data as `strm.total_out` does. -/
structure State (size : SizeT) where
  limit : BitVec size.bits
  skip : BitVec size.bits
  ret : InflateRet
  out : Mem
  totalOut : Nat
  dest : List (UInt8 × Nat)

/-- Where a call of `inflate` leads. -/
inductive Step (size : SizeT) where
  | next (s : State size)
  | done (ret : InfRet) (dest : List (UInt8 × Nat))

/-- `special_min` -/
def specialMin (a b : BitVec size.bits) : BitVec size.bits :=
  if a = 0 then b else if a < b then a else b

/-- A turn of the inner loop: a call of `inflate`, and what is done with the portion. -/
def inflateTurn (s : State size) (p : Portion) : Except Fault (Step size) :=
  match p.ret with
  | .needDict => .ok (.done .dataError s.dest)
  | .dataError => .ok (.done .dataError s.dest)
  | .memError => .ok (.done .memError s.dest)
  | _ =>
    let out := writeBytes s.out 0 p.out
    let written := specialMin s.limit (BitVec.ofNat _ p.out.length) - s.skip
    -- `fwrite` of no bytes returns 0
    if written = 0 then .ok (.done .errno s.dest)
    -- `out` has `CHUNK` bytes
    else if s.skip.toNat + written.toNat > chunk then .error .outOfBounds
    else
      let bytes := bytesAt out s.skip.toNat written.toNat
      .ok (.next
        { limit := s.limit - written
          skip := 0
          ret := p.ret
          out := out
          totalOut := s.totalOut + p.out.length
          dest := s.dest ++ bytes.zipIdx (s.totalOut + s.skip.toNat) })

/-- The inner loop over the calls that are left behind an `fread`. -/
def inflateLoop (s : State size) : List Portion → Except Fault (Step size)
  | [] => .ok (.next s)
  | p :: ps => do
    match ← inflateTurn s p with
    | .done ret dest => .ok (.done ret dest)
    | .next s =>
      if p.out.length = chunk ∧ s.limit ≠ 0 then inflateLoop s ps else .ok (.next s)

/-- The end of `inf`. -/
def finish (s : State size) : InfRet × List (UInt8 × Nat) :=
  (if s.limit = 0 then .ok else if s.ret = .streamEnd then .ok else .dataError, s.dest)

/-- The outer loop over the feeds that are left in the source. -/
def infLoop (s : State size) : List Feed → Except Fault (InfRet × List (UInt8 × Nat))
  | [] => .ok (finish s)
  | f :: fs => do
    match ← inflateLoop s (f.fulls ++ [f.last]) with
    | .done ret dest => .ok (ret, dest)
    | .next s =>
      if s.ret ≠ .streamEnd ∧ s.limit ≠ 0 then infLoop s fs else .ok (finish s)

/-- `inf`: what it returns, and what it has written. -/
def inf (source : List Feed) (limit skip : BitVec size.bits) :
    Except Fault (InfRet × List (UInt8 × Nat)) :=
  infLoop { limit := limit, skip := skip, ret := .ok, out := fun _ => 0, totalOut := 0, dest := [] }
    source

end HandsomeMod.Native.FritzCal
