import HandsomeMod.ForStd.CStream
import HandsomeMod.ForStd.Crc
import HandsomeMod.ForStd.Loop
import HandsomeMod.ForStd.Mem

/-!
# The BCM4908 image tool

Embeds `bcm4908img_create` and `bcm4908img_parse` of `bcm4908img.c` on a little-endian 64-bit host.
A file is the list of its bytes. Writes succeed, an allocation may fail.
-/

namespace HandsomeMod.Native.Bcm4908img

open ForStd

def wfiVersion : Nat := 0x5732

def wfiNand128Flash : Nat := 3

def wfiFlagSupportsBtrm : Nat := 0x2

def ubiEcHdrMagic : Nat := 0x55424923

/-- `sizeof(struct bcm4908img_tail)` -/
def sizeofTail : Nat := 20

/-- `sizeof(struct linksys_tail)` -/
def sizeofLinksysTail : Nat := 256

/-- A value as `size_t`. -/
def sizeT (n : Int) : Nat := (n % 2 ^ 64).toNat

/-- A value as `ssize_t`. -/
def ssizeT (n : Int) : Int := n.bmod (2 ^ 64)

/-! ### Create -/

/-- The options of `bcm4908img_create`, numbers as `strtol` returns them. -/
inductive Opt where
  /-- `-f file` -/
  | file (path : String)
  /-- `-a alignment` -/
  | align (alignment : Int)
  /-- `-A offset` -/
  | offset (offset : Int)
  deriving DecidableEq, Repr

/-- The variables of `bcm4908img_create`, with the output file. -/
structure Create where
  fp : List UInt8
  crc32 : UInt32
  curOffset : Nat
  deriving DecidableEq, Repr

/-- What `bcm4908img_create` does with the length an append returns: a negative one is reported. -/
def Create.advance (s : Create) (bytes : Int) : Create :=
  if bytes < 0 then s else { s with curOffset := sizeT (s.curOffset + bytes) }

variable (fs : String → Option (List UInt8)) (malloc : Nat → Bool)

/-- The loop of `bcm4908img_create_append_file`, 1024 bytes of `rest` at a time. -/
def appendLoop : Nat → List UInt8 → List UInt8 → UInt32 → Nat → List UInt8 × UInt32 × Nat
  | 0, _, trx, crc32, length => (trx, crc32, length)
  | fuel + 1, rest, trx, crc32, length =>
    let buf := rest.take 1024
    if buf.length = 0 then (trx, crc32, length)
    else
      appendLoop fuel (rest.drop buf.length) (trx ++ buf) (Crc.accumulate crc32 buf)
        (length + buf.length)

/-- `bcm4908img_create_append_file`, for a file that cannot be opened as well. -/
def createAppendFile (s : Create) (inPath : String) : Create :=
  match fs inPath with
  | none => s
  | some content =>
    let r := appendLoop (content.length + 1) content s.fp s.crc32 0
    { s with fp := r.1, crc32 := r.2.1 }.advance (ssizeT r.2.2)

/-- `bcm4908img_create_append_zeros`, without memory as well. -/
def createAppendZeros (s : Create) (length : Nat) : Create :=
  if malloc length then
    { s with fp := s.fp ++ List.replicate length 0 }.advance (ssizeT length)
  else s

/-- `bcm4908img_create_align`: none when it divides by zero. -/
def createAlign (s : Create) (alignment : Nat) : Option Create :=
  if s.curOffset &&& sizeT (alignment - 1) ≠ 0 then
    if alignment = 0 then none
    else some (createAppendZeros malloc s (sizeT (alignment - s.curOffset % alignment)))
  else some s

/-- One option. -/
def createOpt (s : Create) : Opt → Option Create
  | .file path => some (createAppendFile fs s path)
  | .align alignment => createAlign malloc s (sizeT alignment)
  | .offset offset =>
    let bytes := ssizeT (offset - s.curOffset)
    if bytes < 0 then some s
    else some (createAppendZeros malloc s bytes.toNat)

/-- All options from a state on. -/
def createOpts (s : Create) (opts : List Opt) : Option Create := opts.foldlM (createOpt fs malloc) s

def Create.init : Create where
  fp := []
  crc32 := 0xffffffff
  curOffset := 0

/-- `struct bcm4908img_tail` as `bcm4908img_create` writes it. -/
def tail (crc32 : UInt32) : List UInt8 :=
  leBytes 4 crc32.toNat ++ leBytes 4 wfiVersion ++ leBytes 4 0x4908 ++ leBytes 4 wfiNand128Flash ++
    leBytes 4 wfiFlagSupportsBtrm

/-- `bcm4908img_create`: the file, or none if it stopped on a division by zero. -/
def create (opts : List Opt) : Option (List UInt8) :=
  (createOpts fs malloc Create.init opts).map fun s => s.fp ++ tail s.crc32

/-! ### Parse -/

inductive Err where
  | eio
  | eproto
  deriving DecidableEq, Repr

/-- The offsets of `struct bcm4908img_info`. -/
structure Info where
  cferomOffset : Nat
  bootfsOffset : Nat
  paddingOffset : Nat
  rootfsOffset : Nat
  tailOffset : Nat
  deriving DecidableEq, Repr

/-- `fseek` and `fread`: `n` bytes, or what there is of them. -/
def readAt (fp : List UInt8) (pos n : Nat) : List UInt8 := (fp.drop pos).take n

/-- The loop that looks for JFFS2, from `bootfsOffset` on. -/
def findBootfs (fp : List UInt8) (tailOffset : Nat) : Nat → Nat → Except Err Nat
  | 0, _ => .error .eproto
  | fuel + 1, bootfsOffset =>
    if bootfsOffset < tailOffset then
      let tmp16 := readAt fp bootfsOffset 2
      if tmp16.length ≠ 2 then .error .eio
      else if beField 2 tmp16 0 = 0x8519 then .ok bootfsOffset
      else findBootfs fp tailOffset fuel (bootfsOffset + 0x20000)
    else .error .eproto

/-- `bcm4908img_is_all_ff` -/
def isAllFf (buf : List UInt8) : Bool := buf.all (· == 0xff)

/-- The loop that looks for UBI, from `rootfsOffset` on: the offsets of padding and rootfs. -/
def findRootfs (fp : List UInt8) (tailOffset : Nat) : Nat → Nat → Nat → Except Err (Nat × Nat)
  | 0, _, _ => .error .eproto
  | fuel + 1, paddingOffset, rootfsOffset =>
    if rootfsOffset < tailOffset then
      let length := if paddingOffset ≠ 0 then 4 else 256
      let buf := readAt fp rootfsOffset length
      if buf.length ≠ length then .error .eio
      else
        let paddingOffset :=
          if paddingOffset = 0 ∧ isAllFf buf then rootfsOffset else paddingOffset
        if beField 4 buf 0 = ubiEcHdrMagic then .ok (paddingOffset, rootfsOffset)
        else findRootfs fp tailOffset fuel paddingOffset (rootfsOffset + 0x20000)
    else .error .eproto

/-- The offsets that `bcm4908img_parse` finds. -/
def parseOffsets (fp : List UInt8) : Except Err Info := do
  let buf := readAt fp 0 1024
  if buf.length ≠ 1024 then throw .eio
  let cferomOffset := if beField 4 buf 0 = 0x2a23245e then beField 4 buf 4 else 0
  let buf := readAt fp (fp.length - 1024) 1024
  let linksys := buf.drop (1024 - sizeofLinksysTail)
  let tailOffset := fp.length - sizeofTail -
    if linksys.take 9 = [0x2e, 0x4c, 0x49, 0x4e, 0x4b, 0x53, 0x59, 0x53, 0x2e] then
      sizeofLinksysTail
    else 0
  let bootfsOffset ← findBootfs fp tailOffset (tailOffset + 1) cferomOffset
  let (paddingOffset, rootfsOffset) ← findRootfs fp tailOffset (tailOffset + 1) 0 bootfsOffset
  return { cferomOffset, bootfsOffset, paddingOffset, rootfsOffset, tailOffset }

/-- The checksum of what `fread` returns, `min(1024, length)` bytes at a time until it returns
nothing, and what is left of `length`. -/
def crcLoop : Nat → List UInt8 → UInt32 → Nat → UInt32 × Nat
  | 0, _, crc32, length => (crc32, length)
  | fuel + 1, fp, crc32, length =>
    let buf := fp.take (min 1024 length)
    if buf.length = 0 then (crc32, length)
    else crcLoop fuel (fp.drop buf.length) (Crc.accumulate crc32 buf) (length - buf.length)

/-- The checksum that `bcm4908img_parse` computes from the offsets. -/
def parseCrc32 (fp : List UInt8) (cferomOffset tailOffset : Nat) : Except Err UInt32 :=
  let data := fp.drop cferomOffset
  let r := crcLoop (data.length + 1) data 0xffffffff (tailOffset - cferomOffset)
  if r.2 ≠ 0 then .error .eio else .ok r.1

/-- The checksum in a tail that was read. -/
def tailCrc32 (tail : List UInt8) : UInt32 :=
  UInt32.ofNat (loadLE 4 fun k => tail.getD k 0)

/-- `bcm4908img_parse` -/
def parse (fp : List UInt8) : Except Err Info := do
  let info ← parseOffsets fp
  let crc32 ← parseCrc32 fp info.cferomOffset info.tailOffset
  let tail := readAt fp info.tailOffset sizeofTail
  if tail.length ≠ sizeofTail then throw .eio
  if crc32 ≠ tailCrc32 tail then throw .eproto
  return info

end HandsomeMod.Native.Bcm4908img

/-!
## The boot file system in a BCM4908 image

Embeds `bcm4908img_bootfs_ls` and `bcm4908img_bootfs_mv` of `bcm4908img.c`. Both walk over the JFFS2
nodes from `bootfs_offset` on, in a loop without a bound of its own. Reads and writes fail only at
the end of the file.
-/

namespace HandsomeMod.Native.Bcm4908img

open ForStd

inductive BootfsErr where
  | eio
  | einval
  | enoent
  | enomem
  deriving DecidableEq, Repr

def jffs2MagicBitmask : Nat := 0x1985

/-- JFFS2_FEATURE_INCOMPAT | JFFS2_NODE_ACCURATE | 1 -/
def jffs2NodetypeDirent : Nat := 0xe001

/-- `sizeof(struct jffs2_unknown_node)` -/
def sizeofUnknownNode : Nat := 12

/-- `sizeof(struct jffs2_raw_dirent)`, the offset of its name too -/
def sizeofRawDirent : Nat := 40

/-- `offsetof(struct jffs2_raw_dirent, name_crc)` -/
def offsetofNameCrc : Nat := 36

/-- FILENAME_MAX -/
def filenameMax : Nat := 4096

/-- A little-endian number of `n` bytes in a buffer. -/
def leWord (n : Nat) (buf : List UInt8) (pos : Nat) : Nat :=
  loadLE n fun k => buf.getD (pos + k) 0

/-- `(je32_to_cpu(node.totlen) + 0x03) & ~0x03` -/
def roundLen (totlen : UInt32) : UInt32 := (totlen + 3) &&& 0xfffffffc

/-- The string in a buffer -/
def cstr (buf : List UInt8) : List UInt8 := buf.takeWhile (· ≠ 0)

/-- What a turn of the loops finds at `offset`, with the offset of the next node. -/
inductive Node where
  /-- The file ends in the node. -/
  | failed
  /-- There is no node. -/
  | none
  | other (next : Nat)
  | tooLong (next : Nat)
  | dirent (next : Nat) (name : List UInt8)
  deriving DecidableEq, Repr

/-- The part of the loops that reads a node; `nameSize` is `sizeof(name)`. -/
def readNode (nameSize : Nat) (fp : List UInt8) (offset : Nat) : Node :=
  let node := readAt fp offset sizeofUnknownNode
  if node.length ≠ sizeofUnknownNode then .failed
  -- no node stands here, the list is at its end
  else if leWord 2 node 0 ≠ jffs2MagicBitmask then .none
  else
    let next := offset + (roundLen (UInt32.ofNat (leWord 4 node 4))).toNat
    -- nodes of other types are stepped over
    if leWord 2 node 2 ≠ jffs2NodetypeDirent then .other next
    else
      let dirent := node ++
        readAt fp (offset + sizeofUnknownNode) (sizeofRawDirent - sizeofUnknownNode)
      if dirent.length ≠ sizeofRawDirent then .failed
      else
        let nsize := leWord 1 dirent 28
        -- the name with its `NUL` does not fit into the caller's buffer
        if nsize + 1 > nameSize then .tooLong next
        else
          let name := readAt fp (offset + sizeofRawDirent) nsize
          if name.length ≠ nsize then .failed else .dirent next name

/-! ### List -/

/-- The variables of `bcm4908img_bootfs_ls`, with the names that were printed -/
structure Ls where
  offset : Nat
  err : Option BootfsErr
  printed : List (List UInt8)

/-- A turn of the loop of `bcm4908img_bootfs_ls`: its result, or the variables after the turn. -/
def lsTurn (fp : List UInt8) (s : Ls) : (List (List UInt8) × Option BootfsErr) ⊕ Ls :=
  match readNode (filenameMax + 1) fp s.offset with
  | .failed => .inl (s.printed, some .eio)
  | .none => .inl (s.printed, s.err)
  | .other next => .inr { s with offset := next }
  -- keep reading and printing, but exit with an error
  | .tooLong next => .inr { s with offset := next, err := some .enomem }
  | .dirent next name => .inr { s with offset := next, printed := s.printed ++ [cstr name] }

/-- The loop of `bcm4908img_bootfs_ls` before its first turn -/
def lsStart (info : Info) : Ls := { offset := info.bootfsOffset, err := none, printed := [] }

/-! ### Move -/

/-- `fseek` and `fwrite`, inside of a file -/
def writeAt (fp : List UInt8) (pos : Nat) (bytes : List UInt8) : List UInt8 :=
  fp.take pos ++ bytes ++ fp.drop (pos + bytes.length)

/-- `n` bytes of the argument `newname`; `behind` is the memory behind its end. -/
def argBytes (newname : List UInt8) (behind : Nat → UInt8) (n : Nat) : List UInt8 :=
  (List.range n).map fun i =>
    if i < newname.length then newname.getD i 0
    else if i = newname.length then 0
    else behind (i - newname.length - 1)

/-- What `bcm4908img_bootfs_mv` does with the dirent at `offset`; `bcm4908img_calc_crc32` is the
    checksum of `bcm4908img_parse`, and `info->tail` is what that function has read. -/
def rename (fp : List UInt8) (info : Info) (behind : Nat → UInt8) (newname : List UInt8)
    (offset nsize : Nat) : List UInt8 × Option BootfsErr :=
  let tail := readAt fp info.tailOffset sizeofTail
  let newname := argBytes newname behind nsize
  let fp := writeAt fp (offset + offsetofNameCrc) (leBytes 4 (Crc.accumulate 0 newname).toNat)
  let fp := writeAt fp (offset + sizeofRawDirent) newname
  match parseCrc32 fp info.cferomOffset info.tailOffset with
  | .error _ => (fp, some .eio)
  | .ok crc32 => (writeAt fp (fp.length - sizeofTail) (leBytes 4 crc32.toNat ++ tail.drop 4), none)

/-- A turn of the loop of `bcm4908img_bootfs_mv`: the file and the result, or the next offset. -/
def mvTurn (fp : List UInt8) (info : Info) (behind : Nat → UInt8) (oldname newname : List UInt8)
    (offset : Nat) : (List UInt8 × Option BootfsErr) ⊕ Nat :=
  match readNode filenameMax fp offset with
  | .failed => .inl (fp, some .eio)
  | .none => .inl (fp, some .enoent)
  | .other next => .inr next
  | .tooLong next => .inr next
  | .dirent next name =>
    if cstr name ≠ oldname then .inr next
    else .inl (rename fp info behind newname offset name.length)

/-- `bcm4908img_bootfs_mv` within a number of turns -/
def bootfsMv (fuel : Nat) (fp : List UInt8) (info : Info) (behind : Nat → UInt8)
    (oldname newname : List UInt8) : Option (List UInt8 × Option BootfsErr) :=
  if newname.length ≠ oldname.length then some (fp, some .einval)
  else Loop.run (mvTurn fp info behind oldname newname) fuel info.bootfsOffset

/-- `bcm4908img_bootfs_ls` within a number of turns -/
def bootfsLs (fuel : Nat) (fp : List UInt8) (info : Info) :
    Option (List (List UInt8) × Option BootfsErr) :=
  Loop.run (lsTurn fp) fuel (lsStart info)

end HandsomeMod.Native.Bcm4908img
