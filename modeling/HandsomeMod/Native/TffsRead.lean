import HandsomeMod.ForStd.Loop
import HandsomeMod.ForStd.Mem

/-!
# Reading TFFS 2

Embeds `find_entry`, `parse_key_names` and `print_entry_value` of `fritz_tffs_read.c`, which walk
through the buffer that the file was loaded to. A read outside of the buffer ends them with a fault.
Allocations and writes to the output succeed. A pointer into the buffer is an offset.
-/

namespace HandsomeMod.Native.TffsRead

open ForStd

def tffsIdEnd : Nat := 0xffff

def tffsIdTableName : Nat := 0x01ff

/-- `sizeof(struct tffs_entry_header)` -/
def sizeofEntryHeader : Nat := 4

/-- The machine and the options. -/
structure Cfg where
  endian : Endian
  swapBytes : Bool

inductive Fault where
  | outOfBounds
  deriving Repr, DecidableEq

variable (c : Cfg) (buffer : List UInt8)

def readUint8 (off : Nat) : Except Fault UInt8 :=
  match buffer[off]? with
  | none => .error .outOfBounds
  | some b => .ok b

/-- A `uint16_t` as it is in the buffer. -/
def readUint16 (off : Nat) : Except Fault Nat :=
  if off + 2 ≤ buffer.length then .ok (c.endian.load 2 fun i => buffer.getD (off + i) 0)
  else .error .outOfBounds

/-- `get_header_len` and `get_header_id` of the field -/
def headerField (raw : Nat) : Nat := if c.swapBytes then c.endian.beToCpu 2 raw else raw

/-- `get_walk_size` -/
def getWalkSize (entryLen : UInt32) : UInt32 := (entryLen + 3) &&& 0xfffffffc

/-- `print_entry_value` of the entry at `entry`: what it prints. -/
def printEntryValue (entry : Nat) : Except Fault (List UInt8) := do
  let len ← readUint16 c buffer (entry + 2)
  (List.range (headerField c len)).mapM fun i =>
    readUint8 buffer (entry + sizeofEntryHeader + i)

/-- A turn of the loop of `find_entry` at `pos`. It ends with the entry, or none. -/
def findTurn (id : Nat) (pos : UInt32) : Except Fault (Option Nat) ⊕ UInt32 :=
  match readUint16 c buffer pos.toNat with
  | .error e => .inl (.error e)
  | .ok rawId =>
    if headerField c rawId = id then .inl (.ok (some pos.toNat))
    else
      match readUint16 c buffer (pos.toNat + 2) with
      | .error e => .inl (.error e)
      | .ok rawLen =>
        let pos := pos + 4 + getWalkSize (UInt32.ofNat (headerField c rawLen))
        if pos.toNat < buffer.length ∧ rawId ≠ tffsIdEnd then .inr pos else .inl (.ok none)

/-- `find_entry`, if it ends within `fuel` turns -/
def findEntry (id fuel : Nat) : Option (Except Fault (Option Nat)) :=
  Loop.run (findTurn c buffer id) fuel 0

/-- `struct tffs_name_table_entry` -/
structure NameTableEntry where
  id : Nat
  val : Nat

/-- The variables of the loop of `parse_key_names`. -/
structure KeyNames where
  pos : UInt32
  entries : List NameTableEntry

/-- `strlen` of the string at `off`; it reads up to the first zero byte. -/
def strlen (off : Nat) : Option Nat := (buffer.drop off).findIdx? (· == 0)

/-- A turn of the loop of `parse_key_names` for the entry at `entry`. -/
def namesTurn (entry : Nat) (s : KeyNames) : Except Fault (List NameTableEntry) ⊕ KeyNames :=
  let val := entry + sizeofEntryHeader
  let id := val + s.pos.toNat
  let pos := s.pos + 4
  let name := val + pos.toNat
  match strlen buffer name with
  | none => .inl (.error .outOfBounds)
  | some len =>
    -- names are padded to a multiple of four
    let pos := pos + getWalkSize (UInt32.ofNat (len + 1))
    let entries := s.entries ++ [{ id := id, val := name }]
    match readUint16 c buffer (entry + 2) with
    | .error e => .inl (.error e)
    | .ok rawLen =>
      if pos.toNat < headerField c rawLen then .inr { pos := pos, entries := entries }
      else .inl (.ok entries)

/-- `parse_key_names`, if it ends within `fuel` turns -/
def parseKeyNames (entry fuel : Nat) : Option (Except Fault (List NameTableEntry)) :=
  Loop.run (namesTurn c buffer entry) fuel { pos := 0, entries := [] }

end HandsomeMod.Native.TffsRead
