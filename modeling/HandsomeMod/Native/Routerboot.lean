import HandsomeMod.ForStd.CStream
import HandsomeMod.ForStd.Loop
import HandsomeMod.Native.MtdCore

/-!
# The parser for RouterBoot partitions

Embeds `routerboot_dtbsfixup`, `routerboot_find_dynparts` and `routerboot_partitions_parse` of
`routerbootpart.c`. A `size_t` has as many bits as the machine says, an offset or a size of a
partition has 64. The dynamic partitions are searched for once.
-/

namespace HandsomeMod.Native.Routerboot

open ForStd MtdCore

/-- `RB_BLOCK_SIZE` -/
def rbBlockSize : Nat := 0x1000

/-- `RB_MAGIC_HARD`, `"Hard"` -/
def rbMagicHard : Nat := 0x48 ||| 0x61 <<< 8 ||| 0x72 <<< 16 ||| 0x64 <<< 24

/-- `RB_MAGIC_SOFT`, `"Soft"` -/
def rbMagicSoft : Nat := 0x53 ||| 0x6f <<< 8 ||| 0x66 <<< 16 ||| 0x74 <<< 24

/-- `OF_DT_HEADER` -/
def ofDtHeader : Nat := 0xd00dfeed

/-- `fdt32_to_cpu` -/
def fdt32ToCpu (e : Endian) (v : Nat) : Nat := e.load 4 (storeBE 4 v)

/-- `sizeof(fdt_header)` -/
def sizeofFdtHeader : Nat := 40

/-- `MTD_POWERUP_LOCK` -/
def mtdPowerupLock : Nat := 0x2000

/-- `struct routerboot_dynpart`; `sizeFixup` says whether `size_fixup` is `routerboot_dtbsfixup` or
    NULL. -/
structure Dynpart where
  name : String
  magic : Nat
  sizeFixup : Bool
  offset : Nat
  size : Nat
  found : Bool
  deriving DecidableEq, Repr

/-- `rb_dynparts` -/
def rbDynparts (e : Endian) : List Dynpart :=
  [{ name := "hard_config", magic := rbMagicHard, sizeFixup := false, offset := 0,
     size := rbBlockSize, found := false },
   { name := "soft_config", magic := rbMagicSoft, sizeFixup := false, offset := 0,
     size := rbBlockSize, found := false },
   { name := "dtb_config", magic := fdt32ToCpu e ofDtHeader, sizeFixup := true, offset := 0,
     size := 0, found := false }]

/-- The machine, the flash, and what the parser finds around it: what `buf` holds before the first
    read, the cells of the device tree, and whether the table can be allocated. -/
structure Setup where
  endian : Endian
  sizeBits : Nat
  master : MtdInfo
  garbage : List UInt8
  addrCells : Nat
  sizeCells : Nat
  memory : Bool
  sizeBits_ge : 32 ≤ sizeBits
  sizeBits_le : sizeBits ≤ 64
  length_garbage : garbage.length = 4

variable (s : Setup)

/-- A `size_t`. -/
def Setup.wrap (n : Nat) : Nat := n % 2 ^ s.sizeBits

/-! ### `routerboot_find_dynparts` -/

/-- `routerboot_dtbsfixup`, with the read of number `reads` -/
def routerbootDtbsfixup (reads : Nat) (p : Dynpart) : Except Errno Dynpart :=
  match mtdRead s.master reads p.offset sizeofFdtHeader with
  | .error rc => .error rc
  | .ok header =>
    if header.length ≠ sizeofFdtHeader then .error .eio
    else
      -- `totalsize`
      let psize := beField 4 header 4
      if psize = 0 then .error .einval else .ok { p with size := psize }

/-- The variables of the search, with the number of reads so far. -/
structure Cursor where
  offset : Nat
  reads : Nat
  buf : List UInt8
  parts : List Dynpart

/-- What the loop over the dynamic partitions leaves. -/
structure Visit where
  offset : Nat
  reads : Nat
  parts : List Dynpart
  allfound : Bool

/-- The loop goes on behind a partition. -/
def Visit.behind (p : Dynpart) (v : Visit) : Visit :=
  { v with parts := p :: v.parts, allfound := v.allfound && p.found }

/-- `ALIGN_DOWN(size - RB_BLOCK_SIZE, RB_BLOCK_SIZE)`, for a larger size. -/
def skip (size : Nat) : Nat :=
  if size > rbBlockSize then (size - rbBlockSize) / rbBlockSize * rbBlockSize else 0

/-- The loop over the dynamic partitions, with the number in `buf`. -/
def visitParts (offset magic : Nat) : Nat → List Dynpart → Visit
  | reads, [] => { offset := offset, reads := reads, parts := [], allfound := true }
  | reads, p :: ps =>
    -- already found
    if p.found then (visitParts offset magic reads ps).behind p
    else if p.magic = magic then
      let p := { p with offset := offset }
      if p.sizeFixup then
        match routerbootDtbsfixup s reads p with
        -- the size cannot be read: the partition keeps its offset and the search goes on
        | .error _ => (visitParts offset magic (reads + 1) ps).behind p
        | .ok p =>
          { offset := s.wrap (offset + skip p.size), reads := reads + 1,
            parts := { p with found := true } :: ps, allfound := false }
      else
        { offset := s.wrap (offset + skip p.size), reads := reads,
          parts := { p with found := true } :: ps, allfound := false }
    else (visitParts offset magic reads ps).behind p

/-- `buf` after a read: a short one leaves bytes of the one before it. -/
def readInto (buf bytes : List UInt8) : List UInt8 := bytes ++ buf.drop bytes.length

/-- `buf` as a number. -/
def bufMagic (buf : List UInt8) : Nat := s.endian.load 4 fun i => buf.getD i 0

/-- A turn of the search. -/
def findTurn (c : Cursor) : List Dynpart ⊕ Cursor :=
  if c.offset < s.master.size then
    match mtdRead s.master c.reads c.offset 4 with
    | .error _ => .inr { c with reads := c.reads + 1 }
    | .ok bytes =>
      let buf := readInto c.buf bytes
      let v := visitParts s c.offset (bufMagic s buf) (c.reads + 1) c.parts
      if v.allfound then .inl v.parts
      else .inr { offset := s.wrap (v.offset + rbBlockSize), reads := v.reads, buf := buf,
                  parts := v.parts }
  else .inl c.parts

/-- Where the search begins. -/
def findStart : Cursor :=
  { offset := 0, reads := 0, buf := s.garbage, parts := rbDynparts s.endian }

/-- `routerboot_find_dynparts`: what it leaves in `rb_dynparts`, if it ends within `fuel` turns -/
def routerbootFindDynparts (fuel : Nat) : Option (List Dynpart) :=
  Loop.run (findTurn s) fuel (findStart s)

/-! ### `routerboot_partitions_parse` -/

/-- A subnode: its properties and its name. -/
structure Node where
  label : Option String
  nameProp : Option String
  nodeName : String
  reg : Option (List UInt8)
  size : Option (List UInt8)
  readOnly : Bool
  lock : Bool
  deriving DecidableEq, Repr

def Node.partname (pp : Node) : String := (pp.label.or pp.nameProp).getD pp.nodeName

/-- `struct mtd_partition` with its `of_node`. -/
structure Part extends MtdPartition where
  ofNode : Node
  deriving DecidableEq, Repr

/-- `of_read_number` -/
def ofReadNumber (cells : List UInt8) (size : Nat) : Nat :=
  (List.range size).foldl (fun r i => (r <<< 32 ||| beField 4 cells (4 * i)) % 2 ^ 64) 0

/-- `offset` and `size` in front of the `size` property: of the dynamic partition that was found under
    the name, or behind the previous one. -/
def dynRange (dyn : List Dynpart) (masterOfs : Nat) (pp : Node) : Nat × Nat :=
  match dyn.find? fun d => pp.partname = d.name ∧ d.found = true with
  | some d => (d.offset, d.size)
  | none => (masterOfs, 0)

/-- `offset` and `size` of a partition. -/
def nodeRange (dyn : List Dynpart) (masterOfs : Nat) (pp : Node) : Except Errno (Nat × Nat) :=
  match pp.reg with
  | some reg =>
    if reg.length / 4 ≠ s.addrCells + s.sizeCells then .error .einval
    else .ok (s.wrap (ofReadNumber reg s.addrCells),
      s.wrap (ofReadNumber (reg.drop (4 * s.addrCells)) s.sizeCells))
  | none =>
    let (offset, size) := dynRange dyn masterOfs pp
    match pp.size with
    | some sz =>
      if sz.length / 4 ≠ s.sizeCells then .error .einval
      else .ok (offset, s.wrap (ofReadNumber sz s.sizeCells))
    | none => .ok (offset, size)

/-- The partitions so far, the last one first, and `master_ofs`. -/
structure Table where
  parts : List Part
  masterOfs : Nat

/-- The check of the previous partition against an offset, and the fixup of its end. -/
def fixupPrev (offset : Nat) : List Part → Except Errno (List Part)
  | [] => .ok []
  | prev :: parts =>
    if offset < (prev.offset + prev.size) % 2 ^ 64 then .error .einval
    else if prev.size = 0 then .ok ({ prev with size := offset - prev.offset } :: parts)
    else .ok (prev :: parts)

/-- `mask_flags` -/
def maskFlags (pp : Node) : Nat :=
  (if pp.readOnly then mtdWriteable else 0) ||| if pp.lock then mtdPowerupLock else 0

/-- `ALIGN(n, RB_BLOCK_SIZE)` of a `size_t` -/
def alignBlock (n : Nat) : Nat := s.wrap (n + (rbBlockSize - 1)) / rbBlockSize * rbBlockSize

/-- A turn of the loop over the subnodes. -/
def parseNode (dyn : List Dynpart) (t : Table) (pp : Node) : Except Errno Table := do
  let (offset, size) ← nodeRange s dyn t.masterOfs pp
  let parts ← fixupPrev offset t.parts
  if s.wrap (offset + size) > s.master.size then throw .einval
  let part := { name := pp.partname, offset := offset, size := size, maskFlags := maskFlags pp,
                ofNode := pp }
  return { parts := part :: parts, masterOfs := alignBlock s (offset + size) }

/-- What the parser returns, and the table that it leaves at `pparts`, if any. -/
structure Parsed where
  ret : Int
  pparts : Option (List Part)
  deriving DecidableEq, Repr

/-- `routerboot_partitions_parse` behind the search, with the subnodes of the partition node, if
    there is one. -/
def parseFound (dyn : List Dynpart) : Option (List Node) → Parsed
  | none | some [] => { ret := 0, pparts := none }
  | some pps =>
    if s.memory then
      match pps.foldlM (parseNode s dyn) { parts := [], masterOfs := 0 } with
      | .ok t => { ret := t.parts.length, pparts := some t.parts.reverse }
      | .error rc => { ret := rc.toRet, pparts := none }
    else { ret := Errno.enomem.toRet, pparts := none }

/-- `routerboot_partitions_parse` -/
def routerbootPartitionsParse (nodes : Option (List Node)) (fuel : Nat) : Option Parsed :=
  match nodes with
  | none | some [] => some { ret := 0, pparts := none }
  | some pps =>
    -- nothing is searched for without a table
    if s.memory then (routerbootFindDynparts s fuel).map fun dyn => parseFound s dyn (some pps)
    else some { ret := Errno.enomem.toRet, pparts := none }

end HandsomeMod.Native.Routerboot
