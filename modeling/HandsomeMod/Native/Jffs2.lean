import HandsomeMod.ForStd.Cells
import HandsomeMod.ForStd.Crc
import HandsomeMod.ForStd.Except
import HandsomeMod.ForStd.Loop
import HandsomeMod.ForStd.Mem
import HandsomeMod.Native.MtdWrite

/-!
# Writing JFFS2 nodes

Embeds `jffs2.c` of `package/system/mtd/src`: nodes are put together in a buffer of one erase block
at `buf + ofs`; `pad` writes the buffer to the device when it is full. A file is a directory entry
and a list of inode nodes with its data. `mtd_parse_jffs2data` looks through the nodes of a block
for the last inode number and version, and for the directory.

A computation ends with a fault where the program goes outside of a buffer, calls `exit(1)`, or does
not end. Counters of type `int` wrap. Results of `mtd_erase_block` and `write` are not looked at.
-/

namespace HandsomeMod.Native.Jffs2

open ForStd
open Mtd (MtdDev Fd ReadRes)

inductive Fault where
  | outside
  | exit
  | endless
  deriving Repr, DecidableEq

/-- The machine: its byte order and the width of `size_t`. -/
structure Cfg where
  endian : Endian
  sizeBits : Nat
  le_sizeBits : 32 ≤ sizeBits

/-! ### Nodes -/

def jffs2MagicBitmask : Nat := 0x1985

def jffs2NodetypeDirent : Nat := 0xe001

def jffs2NodetypeInode : Nat := 0xe002

/-- `JFFS2_EOF` -/
def jffs2Eof : List UInt8 := [0xde, 0xad, 0xc0, 0xde]

/-- `CLEANMARKER` -/
def cleanmarker (c : Cfg) : List UInt8 :=
  match c.endian with
  | .big => [0x19, 0x85, 0x20, 0x03, 0x00, 0x00, 0x00, 0x0c, 0xf0, 0x60, 0xdc, 0x98]
  | .little => [0x85, 0x19, 0x03, 0x20, 0x0c, 0x00, 0x00, 0x00, 0xb1, 0xb0, 0x1e, 0xe4]

/-- The bytes of a `jint16_t`. -/
def jint16 (c : Cfg) (v : Nat) : List UInt8 := bytesAt (c.endian.store 2 v) 0 2

/-- The bytes of a `jint32_t`. -/
def jint32 (c : Cfg) (v : UInt32) : List UInt8 := bytesAt (c.endian.store 4 v.toNat) 0 4

/-- `crc32(0, ss, len)` -/
def crc32 (ss : List UInt8) : UInt32 := Crc.accumulate 0 ss

/-- `struct jffs2_raw_dirent` without the constants, and the name behind it. -/
structure RawDirent where
  totlen : UInt32
  hdrCrc : UInt32
  pino : UInt32
  version : UInt32
  ino : UInt32
  mctime : UInt32
  nsize : UInt8
  type : UInt8
  nodeCrc : UInt32
  nameCrc : UInt32
  name : List UInt8
  deriving Repr, DecidableEq

/-- `sizeof(struct jffs2_raw_dirent)` -/
def sizeofDirent : Nat := 40

/-- The header of a directory entry as it lies in memory. -/
@[irreducible] def RawDirent.header (c : Cfg) (de : RawDirent) : List UInt8 :=
  jint16 c jffs2MagicBitmask ++ jint16 c jffs2NodetypeDirent ++ jint32 c de.totlen ++
    jint32 c de.hdrCrc ++ jint32 c de.pino ++ jint32 c de.version ++ jint32 c de.ino ++
    jint32 c de.mctime ++ [de.nsize, de.type, 0, 0] ++ jint32 c de.nodeCrc ++ jint32 c de.nameCrc

/-- `struct jffs2_raw_inode` without the constants, and the data behind it. -/
structure RawInode where
  totlen : UInt32
  hdrCrc : UInt32
  ino : UInt32
  version : UInt32
  mode : UInt32
  isize : UInt32
  atime : UInt32
  mtime : UInt32
  ctime : UInt32
  offset : UInt32
  csize : UInt32
  dsize : UInt32
  dataCrc : UInt32
  nodeCrc : UInt32
  data : List UInt8
  deriving Repr, DecidableEq

/-- `sizeof(struct jffs2_raw_inode)` -/
def sizeofInode : Nat := 68

/-- The header of an inode node; `uid`, `gid`, `compr`, `usercompr` and `flags` are zero. -/
@[irreducible] def RawInode.header (c : Cfg) (ri : RawInode) : List UInt8 :=
  jint16 c jffs2MagicBitmask ++ jint16 c jffs2NodetypeInode ++ jint32 c ri.totlen ++
    jint32 c ri.hdrCrc ++ jint32 c ri.ino ++ jint32 c ri.version ++ jint32 c ri.mode ++
    jint16 c 0 ++ jint16 c 0 ++ jint32 c ri.isize ++ jint32 c ri.atime ++ jint32 c ri.mtime ++
    jint32 c ri.ctime ++ jint32 c ri.offset ++ jint32 c ri.csize ++ jint32 c ri.dsize ++
    [0, 0] ++ jint16 c 0 ++ jint32 c ri.dataCrc ++ jint32 c ri.nodeCrc

inductive Node where
  | dirent (de : RawDirent)
  | inode (ri : RawInode)
  deriving Repr, DecidableEq

/-- The bytes of a node. -/
def Node.bytes (c : Cfg) : Node → List UInt8
  | .dirent de => de.header c ++ de.name
  | .inode ri => ri.header c ++ ri.data

/-! ### The buffer -/

/-- The globals `last_ino`, `last_version` and `target_ino`. -/
structure Globals where
  lastIno : UInt32
  lastVersion : UInt32
  targetIno : UInt32
  deriving Repr, DecidableEq

/-- The globals of `jffs2.c`, with the device behind `outfd` and what has been done so far: the
    buffers that were handed to `write`, and the nodes that were put together. -/
structure St where
  buf : List UInt8
  ofs : Nat
  mtdofs : Nat
  globals : Globals
  fd : Fd
  blocks : List (List UInt8)
  nodes : List Node

/-- `while (mtd_block_is_bad(outfd, mtdofs) && (mtdofs < mtdsize))` -/
def skipBad (d : MtdDev) : Nat → Fd → Nat → Except Fault (Fd × Nat)
  | 0, _, _ => .error .endless
  | fuel + 1, fd, mtdofs =>
    match Mtd.mtdBlockIsBad d mtdofs with
    | none => .error .exit
    | some bad =>
      if bad ∧ mtdofs < d.size then
        skipBad d fuel (fd.seekCur d.erasesize) (mtdofs + d.erasesize)
      else .ok (fd, mtdofs)

/-- The part of `pad` that writes a full buffer. -/
def flush (d : MtdDev) (st : St) : Except Fault St := do
  let (fd, mtdofs) ← skipBad d (d.nblocks + 1) st.fd st.mtdofs
  let fd := (Mtd.mtdEraseBlock d fd mtdofs).getD fd
  let (fd, _) := fd.write d (fun i => st.buf.getD i 0) 0 d.erasesize
  return { st with fd := fd, mtdofs := mtdofs + d.erasesize, blocks := st.blocks ++ [st.buf] }

/-- `memset(buf + ofs, a, n)` -/
def fill (n : Nat) (a : UInt8) (st : St) : Except Fault St :=
  match memset st.buf st.ofs n a with
  | none => .error .outside
  | some buf => .ok { st with buf := buf }

/-- `memcpy(buf + ofs, bytes, ..)` -/
def copy (bytes : List UInt8) (st : St) : Except Fault St :=
  match memcpy st.buf st.ofs bytes with
  | none => .error .outside
  | some buf => .ok { st with buf := buf }

/-- `pad` -/
def pad (d : MtdDev) (size : Nat) (st : St) : Except Fault St := do
  if st.ofs % size = 0 ∧ st.ofs < d.erasesize then return st
  let st ←
    if st.ofs < d.erasesize then do
      let st ← fill (size - st.ofs % size) 0xff st
      pure { st with ofs := st.ofs + (size - st.ofs % size) }
    else pure st
  let st := { st with ofs := st.ofs % d.erasesize }
  if st.ofs = 0 then flush d st else return st

/-- `rbytes` -/
def rbytes (d : MtdDev) (st : St) : Nat := d.erasesize - st.ofs % d.erasesize

/-- `prep_eraseblock`. It and `add_data` call each other for ever if the block has no room for the
    clean marker. -/
def prepEraseblock (c : Cfg) (d : MtdDev) (st : St) : Except Fault St := do
  if 0 < st.ofs then return st
  if d.erasesize < (cleanmarker c).length then throw .endless
  let st ← copy (cleanmarker c) st
  return { st with ofs := st.ofs + (cleanmarker c).length }

/-- `add_data` -/
def addData (c : Cfg) (d : MtdDev) (bytes : List UInt8) (st : St) : Except Fault St := do
  let st ←
    if d.erasesize < st.ofs + bytes.length then do
      let st ← pad d d.erasesize st
      prepEraseblock c d st
    else pure st
  let st ← copy bytes st
  return { st with ofs := st.ofs + bytes.length }

/-! ### Directory entries and directories -/

/-- `ofs - erasesize < sizeof(struct jffs2_raw_dirent) + strlen(name)`, a comparison of `size_t`. -/
def noRoom (c : Cfg) (d : MtdDev) (ofs len : Nat) : Bool :=
  decide (((ofs : Int) - d.erasesize) % 2 ^ c.sizeBits < ((sizeofDirent + len : Nat) : Int))

/-- The directory entry that `add_dirent` puts together. -/
def mkDirent (c : Cfg) (name : List UInt8) (type : UInt8) (pino ino version : UInt32) :
    RawDirent :=
  let de : RawDirent :=
    { totlen := UInt32.ofNat (sizeofDirent + name.length), hdrCrc := 0, pino := pino
      version := version, ino := ino, mctime := 0, nsize := UInt8.ofNat name.length, type := type
      nodeCrc := 0, nameCrc := crc32 name, name := name }
  let de := { de with hdrCrc := crc32 ((de.header c).take 8) }
  { de with nodeCrc := crc32 ((de.header c).take (sizeofDirent - 8)) }

/-- `add_dirent`: the inode number and the state afterwards. -/
def addDirent (c : Cfg) (d : MtdDev) (name : List UInt8) (type : UInt8) (parent : UInt32) (st : St) :
    Except Fault (UInt32 × St) := do
  let st ← if noRoom c d st.ofs name.length then pad d d.erasesize st else pure st
  let st ← prepEraseblock c d st
  let g := st.globals
  let de := mkDirent c name type parent (g.lastIno + 1) g.lastVersion
  let g := { g with lastIno := g.lastIno + 2, lastVersion := g.lastVersion + 1 }
  let st ← copy (de.header c ++ de.name) st
  let st ← pad d 4
    { st with
      globals := g, ofs := st.ofs + (sizeofDirent + de.nsize.toNat)
      nodes := st.nodes ++ [.dirent de] }
  return (de.ino, st)

/-- `IFTODT(S_IFDIR)` -/
def dtDir : UInt8 := 4

/-- `IFTODT(S_IFREG)` -/
def dtReg : UInt8 := 8

/-- Set `hdr_crc` and `node_crc` of an inode node. -/
def RawInode.sealed (c : Cfg) (ri : RawInode) : RawInode :=
  let ri := { ri with hdrCrc := crc32 ((ri.header c).take 8) }
  { ri with nodeCrc := crc32 ((ri.header c).take (sizeofInode - 8)) }

/-- The inode node that `add_dir` puts together. -/
def mkDirInode (c : Cfg) (inode : UInt32) : RawInode :=
  RawInode.sealed c
    { totlen := UInt32.ofNat sizeofInode, hdrCrc := 0, ino := inode, version := 1
      mode := 0x41ed, isize := 0, atime := 0, mtime := 0, ctime := 0, offset := 0, csize := 0
      dsize := 0, dataCrc := 0, nodeCrc := 0, data := [] }

/-- `add_dir`: the inode number and the state afterwards. -/
def addDir (c : Cfg) (d : MtdDev) (name : List UInt8) (parent : UInt32) (st : St) :
    Except Fault (UInt32 × St) := do
  let (inode, st) ← addDirent c d name dtDir parent st
  let st ← if rbytes d st < sizeofInode then pad d d.erasesize st else pure st
  let st ← prepEraseblock c d st
  let ri := mkDirInode c inode
  let st ← addData c d (ri.header c) st
  let st ← pad d 4 { st with nodes := st.nodes ++ [.inode ri] }
  return (inode, st)

/-! ### Files -/

/-- What `stat` says of a file. -/
structure Stat where
  mode : UInt32
  atime : UInt32
  ctime : UInt32
  mtime : UInt32
  size : UInt32

/-- A file: `stat` may fail, and `open` may; `script` is how the reads turn out. -/
structure File where
  name : List UInt8
  stat : Option Stat
  opens : Bool
  bytes : List UInt8
  script : List ReadRes

/-- The name behind the last `/`. -/
def File.fname (f : File) : List UInt8 := (f.name.reverse.takeWhile (· ≠ 0x2f)).reverse

/-- `read(fd, wbuf, len)`: the bytes that it delivers, those left and the reads left. No byte is the
    end of the file or an error. -/
def readSome (len : Nat) : List ReadRes → List UInt8 → List UInt8 × List UInt8 × List ReadRes
  | [], rest => (rest.take len, rest.drop len, [])
  | .short n :: script, rest =>
    (rest.take (min (max n 1) len), rest.drop (min (max n 1) len), script)
  | .eintr :: script, rest => ([], rest, script)
  | .eagain :: script, rest => ([], rest, script)
  | .error :: script, rest => ([], rest, script)

/-- `sizeof(wbuf)` -/
def sizeofWbuf : Nat := 4096

/-- The inner loop of `add_file`: the room for data, as an `int`, and the state. -/
def makeRoom (c : Cfg) (d : MtdDev) : Nat → St → Except Fault (Nat × St)
  | 0, _ => .error .endless
  | fuel + 1, st =>
    let len : Int := (rbytes d st : Int) - sizeofInode
    if 128 < len then .ok (len.toNat, st)
    else do
      let st ← pad d d.erasesize st
      let st ← prepEraseblock c d st
      makeRoom c d fuel st

/-- The inode node of `add_file` for `data`. -/
def mkFileInode (c : Cfg) (s : Stat) (inode version offset : UInt32) (data : List UInt8) :
    RawInode :=
  RawInode.sealed c
    { totlen := UInt32.ofNat (sizeofInode + data.length), hdrCrc := 0, ino := inode
      version := version, mode := s.mode, isize := s.size, atime := s.atime, mtime := s.mtime
      ctime := s.ctime, offset := offset, csize := UInt32.ofNat data.length
      dsize := UInt32.ofNat data.length, dataCrc := crc32 data, nodeCrc := 0, data := data }

/-- The end of a turn of `add_file`: the node and its data. -/
def addNode (c : Cfg) (d : MtdDev) (ri : RawInode) (st : St) : Except Fault St := do
  let st ← addData c d (ri.header c) st
  let st ← addData c d ri.data st
  let st ← pad d 4 { st with nodes := st.nodes ++ [.inode ri] }
  prepEraseblock c d st

/-- The outer loop of `add_file`. A second turn of the inner loop finds the buffer as it does every
    later one. -/
def addFileLoop (c : Cfg) (d : MtdDev) (s : Stat) (inode : UInt32) :
    Nat → UInt32 → List ReadRes → List UInt8 → St → Except Fault St
  | 0, _, _, _, _ => .error .endless
  | fuel + 1, fOffset, script, rest, st => do
    let (len, st) ← makeRoom c d 2 st
    let (data, rest, script) := readSome (min len sizeofWbuf) script rest
    if data = [] then return st
    let version := st.globals.lastVersion + 1
    let ri := mkFileInode c s inode version fOffset data
    let st := { st with globals := { st.globals with lastVersion := version } }
    let st ← addNode c d ri st
    addFileLoop c d s inode fuel (fOffset + UInt32.ofNat data.length) script rest st

/-- `add_file` -/
def addFile (c : Cfg) (d : MtdDev) (f : File) (parent : UInt32) (st : St) : Except Fault St :=
  match f.stat with
  | none => .ok st
  | some s => do
    let (inode, st) ← addDirent c d f.fname dtReg parent st
    if f.opens then addFileLoop c d s inode (f.bytes.length + 1) 0 f.script f.bytes st
    else return st

/-- Pad the block, and write one with the end marker. -/
def addEof (c : Cfg) (d : MtdDev) (st : St) : Except Fault St := do
  let st ← pad d d.erasesize st
  let st ← addData c d jffs2Eof st
  pad d d.erasesize st

/-- `if (!last_ino) last_ino = 1;` -/
def Globals.started (g : Globals) : Globals :=
  if g.lastIno = 0 then { g with lastIno := 1 } else g

/-- `mtd_replace_jffs2` with the device at `fd` and `buf` from `malloc`: the state at the end, which
    is `mtdofs - ofs` bytes further on. -/
def mtdReplaceJffs2 (c : Cfg) (d : MtdDev) (f : File) (g : Globals) (buf : List UInt8) (fd : Fd)
    (ofs : Nat) : Except Fault St := do
  let st : St :=
    { buf := buf, ofs := 0, mtdofs := ofs, globals := { g with targetIno := 1 }.started, fd := fd
      blocks := [], nodes := [] }
  let st ← addFile c d f st.globals.targetIno st
  addEof c d st

/-! ### Looking for the end of a file system -/

/-- A byte of the erase block. -/
def byteAt (buf : List UInt8) (pos : Nat) : Except Fault UInt8 :=
  match buf[pos]? with
  | none => .error .outside
  | some b => .ok b

/-- A field of `n` bytes in the erase block. -/
def fieldAt (c : Cfg) (buf : List UInt8) (n pos : Nat) : Except Fault Nat :=
  if pos + n ≤ buf.length then .ok (c.endian.load n fun i => buf.getD (pos + i) 0)
  else .error .outside

/-- `PAD` of a `jint32_t` -/
def padded (x : UInt32) : UInt32 := (x + 3) &&& 0xfffffffc

/-- `!strncmp(name, dir, n)` for the name at `pos`; `dir` ends with its length. -/
def strncmpEq (buf : List UInt8) : Nat → List UInt8 → Nat → Except Fault Bool
  | _, _, 0 => .ok true
  | pos, dir, n + 1 => do
    let a ← byteAt buf pos
    if a ≠ dir.headD 0 then return false
    if a = 0 then return true
    strncmpEq buf (pos + 1) dir.tail n

/-- The directory entry at `node` is that of the directory, as the scan takes it. -/
def isTarget (c : Cfg) (dir buf : List UInt8) (node : Nat) : Except Fault Bool :=
  if dir = [] then .ok false
  else do
    let pino ← fieldAt c buf 4 (node + 12)
    if pino = 1 then do
      let nsize ← byteAt buf (node + 28)
      strncmpEq buf (node + 40) dir nsize.toNat
    else return false

/-- The directory entry at `node`: what it does to the globals. -/
def scanDirent (c : Cfg) (dir buf : List UInt8) (node : Nat) (g : Globals) :
    Except Fault Globals := do
  let found ← isTarget c dir buf node
  let ino ← fieldAt c buf 4 (node + 20)
  let version ← fieldAt c buf 4 (node + 16)
  return {
    lastIno := if g.lastIno.toNat < ino then UInt32.ofNat ino else g.lastIno
    lastVersion :=
      if g.lastVersion.toNat < version then UInt32.ofNat version else g.lastVersion
    targetIno := if found then UInt32.ofNat ino else g.targetIno }

/-- A node of `mtd_parse_jffs2data`: where the next one is, and the globals; none behind the last. -/
def scanNode (c : Cfg) (dir buf : List UInt8) (ofs : UInt32) (g : Globals) :
    Except Fault (Option (UInt32 × Globals)) := do
  let magic ← fieldAt c buf 2 ofs.toNat
  if magic ≠ jffs2MagicBitmask then return none
  let totlen ← fieldAt c buf 4 (ofs.toNat + 4)
  let nodetype ← fieldAt c buf 2 (ofs.toNat + 2)
  let g ← if nodetype = jffs2NodetypeDirent then scanDirent c dir buf ofs.toNat g else pure g
  return some (ofs + padded (UInt32.ofNat totlen), g)

/-- A turn of the loop of `mtd_parse_jffs2data`. -/
def scanTurn (c : Cfg) (d : MtdDev) (dir buf : List UInt8) (s : UInt32 × Globals) :
    Except Fault Globals ⊕ UInt32 × Globals :=
  if s.1.toNat < d.erasesize then
    match scanNode c dir buf s.1 s.2 with
    | .error e => .inl (.error e)
    | .ok none => .inl (.ok s.2)
    | .ok (some s) => .inr s
  else .inl (.ok s.2)

/-- `mtd_parse_jffs2data`, within `fuel` turns -/
def mtdParseJffs2data (c : Cfg) (d : MtdDev) (dir : List UInt8) (fuel : Nat) (buf : List UInt8)
    (g : Globals) : Except Fault Globals :=
  (Loop.run (scanTurn c d dir buf) fuel (0, g)).getD (.error .endless)

/-- `read(outfd, buf, erasesize)`, if it delivers a whole block. -/
def readBlock (d : MtdDev) (readFault : Nat → Bool) (fd : Fd) : Option (List UInt8 × Fd) :=
  if fd.pos + d.erasesize ≤ d.size ∧ readFault fd.pos = false then
    some (bytesAt fd.mem fd.pos d.erasesize, fd.seekCur d.erasesize)
  else none

/-- The loop of `mtd_write_jffs2` that looks for the end of the file system: none if it returns an
    error, otherwise the last block read, and the device and the globals behind it. -/
def findEnd (c : Cfg) (d : MtdDev) (readFault : Nat → Bool) (dir : List UInt8) (turns : Nat) :
    Nat → Fd → Globals → Nat → Except Fault (Option (List UInt8 × Fd × Globals × Nat))
  | 0, _, _, _ => .error .endless
  | fuel + 1, fd, g, mtdofs =>
    match readBlock d readFault fd with
    | none => .ok none
    | some (buf, fd) => do
      let magic ← fieldAt c buf 2 0
      if magic = 0x8519 then return none
      if magic ≠ jffs2MagicBitmask then return some (buf, fd, g, mtdofs + d.erasesize)
      let g ← mtdParseJffs2data c d dir turns buf g
      findEnd c d readFault dir turns fuel fd g (mtdofs + d.erasesize)

/-- `mtd_write_jffs2`, with `turns` turns for each scan of a block: the state when it returns 0, and
    none when it returns -1. -/
def mtdWriteJffs2 (c : Cfg) (d : MtdDev) (readFault : Nat → Bool) (turns : Nat) (f : File)
    (dir : List UInt8) (fd : Fd) (g : Globals) : Except Fault (Option St) := do
  let g := if dir = [] then { g with targetIno := 1 } else g
  let found ← findEnd c d readFault dir turns (d.nblocks + 1) fd g 0
  match found with
  | none => return none
  | some (buf, fd, g, mtdofs) =>
    -- the search has gone one block on, the file goes into the block with the end mark
    let mtdofs := mtdofs - d.erasesize
    let st : St :=
      { buf := buf, ofs := 0, mtdofs := mtdofs, globals := g.started
        fd := { fd with pos := mtdofs }, blocks := [], nodes := [] }
    let st ←
      -- the directory is not there yet
      if st.globals.targetIno = 0 then do
        let (target, st) ← addDir c d dir 1 st
        pure { st with globals := { st.globals with targetIno := target } }
      else pure st
    let st ← addFile c d f st.globals.targetIno st
    let st ← addEof c d st
    return some st

end HandsomeMod.Native.Jffs2
