import HandsomeMod.ForStd.Except
import HandsomeMod.ForStd.Mem

/-!
# The ring of `iwcap`

Embeds the ring of captured frames of `iwcap.c`: `ringbuf_init`, `ringbuf_add` and `ringbuf_get`, and of
`main` the checks of `-r` and `-c`, the part of the capture loop that stores a frame, and the dump. A
pointer is an offset into the memory of the ring.
-/

namespace HandsomeMod.Native.Iwcap

open ForStd

/-- What is undefined in C. -/
inductive Fault where
  | outOfBounds
  | divByZero
  | overflow
  deriving Repr, DecidableEq

/-- `struct ringbuf`; `size` bytes were allocated. -/
structure Ringbuf where
  len : UInt32
  fill : UInt32
  slen : UInt32
  size : Nat
  buf : Mem

/-- Bytes are written. -/
def Ringbuf.store (r : Ringbuf) (p : Nat) (l : List UInt8) : Except Fault Ringbuf :=
  if p + l.length ≤ r.size then .ok { r with buf := writeBytes r.buf p l } else .error .outOfBounds

/-- Bytes are read. -/
def Ringbuf.fetch (r : Ringbuf) (p n : Nat) : Except Fault (List UInt8) :=
  if p + n ≤ r.size then .ok (bytesAt r.buf p n) else .error .outOfBounds

/-- The bytes of a `uint32_t`. -/
def word (e : Endian) (v : UInt32) : List UInt8 := bytesAt (e.store 4 v.toNat) 0 4

/-- A `uint32_t` is read. -/
def ofWord (e : Endian) (l : List UInt8) : Nat := e.load 4 fun i => l.getD i 0

/-- `sizeof(struct ringbuf_entry)` -/
def entrySize : Nat := 16

/-- `ringbuf_init`, where `size_t` has `w` bits and `malloc` returned `mem`; none for NULL -/
def ringbufInit (w : Nat) (mem : Option Mem) (numItem : UInt32) (lenItem : UInt16) :
    Except Fault (Option Ringbuf) :=
  if lenItem ≤ 0 then .ok none
  else
    match mem with
    | none => .ok none
    | some buf => do
      let r : Ringbuf :=
        { len := numItem
          fill := 0
          -- an entry and its header
          slen := UInt32.ofNat (lenItem.toNat + entrySize)
          size := numItem.toNat * (lenItem.toNat + entrySize) % 2 ^ w
          buf := buf }
      -- the product has 32 bits
      let r ← r.store 0 (List.replicate (numItem.toNat * lenItem.toNat % 2 ^ 32) 0)
      return some r

/-- `ringbuf_add` at a time: the entry, and the ring after it -/
def Ringbuf.add (e : Endian) (r : Ringbuf) (sec usec : UInt32) : Except Fault (Nat × Ringbuf) :=
  let p := (r.fill * r.slen).toNat
  if r.len = 0 then .error .divByZero
  else do
    let r := { r with fill := (r.fill + 1) % r.len }
    let r ← r.store p (List.replicate r.slen.toNat 0)
    let r ← r.store (p + 8) (word e sec)
    let r ← r.store (p + 12) (word e usec)
    return (p, r)

/-- `ringbuf_get`; none for NULL -/
def Ringbuf.get (e : Endian) (r : Ringbuf) (i : Nat) : Except Fault (Option Nat) :=
  if r.len = 0 then .error .divByZero
  else do
    let p := ((r.fill + UInt32.ofNat i) % r.len * r.slen).toNat
    let len ← r.fetch p 4
    return if ofWord e len > 0 then some p else none

/-! ### The capture loop -/

/-- A frame that `recvfrom` put into `pktbuf`, and the time. -/
structure Frame where
  pktbuf : List UInt8
  sec : UInt32
  usec : UInt32
  length_le : pktbuf.length ≤ 0xFFFF

/-- `pktlen` -/
def Frame.pktlen (f : Frame) : Nat := f.pktbuf.length

/-- `rhdr->it_len` -/
def Frame.itLen (f : Frame) : Nat := loadLE 2 fun i => f.pktbuf.getD (2 + i) 0

/-- Whether a frame is stored. -/
def Frame.kept (filterData filterBeacon : Bool) (f : Frame) : Bool :=
  if f.pktlen ≤ 8 || f.itLen ≥ f.pktlen then false
  else
    let frametype := f.pktbuf.getD f.itLen 0
    !((filterData && (frametype &&& 0xFC) == 0x08) || (filterBeacon && (frametype &&& 0xFC) == 0x80))

/-- `e->len` -/
def Frame.len (pktcap : UInt16) (f : Frame) : Nat :=
  if f.pktlen > pktcap.toNat then pktcap.toNat else f.pktlen

/-- A frame is stored. -/
def Ringbuf.capture (e : Endian) (pktcap : UInt16) (r : Ringbuf) (f : Frame) : Except Fault Ringbuf := do
  let (p, r) ← r.add e f.sec f.usec
  let r ← r.store (p + 4) (word e (UInt32.ofNat f.pktlen))
  let r ← r.store p (word e (UInt32.ofNat (f.len pktcap)))
  r.store (p + entrySize) (f.pktbuf.take (f.len pktcap))

/-- The frames that come in, one after the other. -/
def Ringbuf.run (e : Endian) (pktcap : UInt16) (filterData filterBeacon : Bool) :
    Ringbuf → List Frame → Except Fault Ringbuf
  | r, [] => .ok r
  | r, f :: fs =>
    if f.kept filterData filterBeacon then do
      let r ← r.capture e pktcap f
      r.run e pktcap filterData filterBeacon fs
    else r.run e pktcap filterData filterBeacon fs

/-! ### The dump -/

/-- What is written to the file for an entry. -/
structure Record where
  sec : Nat
  usec : Nat
  inclLen : Nat
  origLen : Nat
  content : List UInt8
  deriving Repr, DecidableEq

/-- A turn of the dump loop: what is written in it. -/
def Ringbuf.dumpTurn (e : Endian) (r : Ringbuf) (i : Nat) : Except Fault (List Record) := do
  match ← r.get e i with
  | none => return []
  | some p =>
    let len ← r.fetch p 4
    let olen ← r.fetch (p + 4) 4
    let sec ← r.fetch (p + 8) 4
    let usec ← r.fetch (p + 12) 4
    let content ← r.fetch (p + entrySize) (ofWord e len)
    return [{ sec := ofWord e sec, usec := ofWord e usec, inclLen := ofWord e len % 2 ^ 16,
              origLen := ofWord e olen % 2 ^ 16, content := content }]

/-- So many turns from `i` on, which is an `int`. -/
def Ringbuf.dumpFrom (e : Endian) (r : Ringbuf) : Nat → Nat → Except Fault (List Record)
  | 0, _ => .ok []
  | n + 1, i => do
    let l ← r.dumpTurn e i
    if i + 1 = 2 ^ 31 then .error .overflow
    else
      let rest ← r.dumpFrom e n (i + 1)
      return l ++ rest

/-- The dump loop. -/
def Ringbuf.dump (e : Endian) (r : Ringbuf) : Except Fault (List Record) := r.dumpFrom e r.len.toNat 0

/-! ### The options -/

/-- An option, with the `int` that `atoi` makes of its argument. -/
inductive Opt where
  | r (v : UInt32)
  | c (v : UInt32)
  deriving Repr, DecidableEq

/-- `ringsz` and `pktcap` -/
structure Sizes where
  ringsz : UInt32
  pktcap : UInt16
  deriving Repr, DecidableEq

/-- `sizeof(radiotap_hdr_t) + LEN_IEEE802_11_HDR` -/
def minPktcap : Nat := 8 + 32

/-- A turn of the option loop; none for an exit -/
def optTurn (s : Sizes) : Opt → Option Sizes
  | .r v => if v.toNat < 3 * s.pktcap.toNat then none else some { s with ringsz := v }
  | .c v => if v.toUInt16.toNat ≤ minPktcap then none else some { s with pktcap := v.toUInt16 }

/-- The option loop. -/
def options (opts : List Opt) : Option Sizes :=
  opts.foldlM optTurn { ringsz := 1024 * 1024, pktcap := 256 }

/-- The arguments of `ringbuf_init`. -/
def Sizes.numItem (s : Sizes) : UInt32 := UInt32.ofNat (s.ringsz.toNat / s.pktcap.toNat)

end HandsomeMod.Native.Iwcap
