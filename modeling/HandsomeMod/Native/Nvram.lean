import HandsomeMod.ForStd.Assoc
import HandsomeMod.ForStd.Chain
import HandsomeMod.ForStd.Mem

/-!
# `libnvram`

Embeds `package/utils/nvram/src/nvram.c`, `crc.c` and `do_info` of `cli.c`. The machine is little
endian, as the CRC of the format is; allocations succeed. The list of dead tuples, which is only
freed, is not part of the model.

The mapping of the partition is memory from its first byte, up to the end of its last page. An
access behind that end is the fault `outside`.
-/

namespace HandsomeMod.Native.Nvram

open ForStd

/-- A C string. -/
abbrev CString := { s : List UInt8 // 0 ∉ s }

/-- `strlen` -/
def strlen (s : CString) : Nat := s.1.length

/-- The machine and the mapping: `partSize` is `nvram_part_size`, `base` the address that `mmap`
    returns. -/
structure Device where
  partSize : Nat
  base : Nat
  page : Nat
  /-- `sizeof(nvram_tuple_t *)` -/
  ptrSize : Nat
  charSigned : Bool
  /-- bits of a `long` -/
  longBits : Nat
  four_dvd_page : 4 ∣ page
  page_pos : 0 < page
  page_dvd_base : page ∣ base
  ptrSize_pos : 0 < ptrSize
  /-- `nvram_find_mtd` reads the size as an `int`. -/
  partSize_lt : partSize < 2 ^ 31

/-- The end of the last page of the mapping. -/
def Device.mapLen (d : Device) : Nat := (d.partSize + d.page - 1) / d.page * d.page

/-- A variable: name and value. -/
abbrev Tuple := CString × CString

inductive Fault where
  | outside
  deriving Repr, DecidableEq

/-! ### The header -/

structure Header where
  magic : UInt32
  len : UInt32
  crcVerInit : UInt32
  configRefresh : UInt32
  configNcdl : UInt32

def nvramMinSpace : Nat := 0x8000

def nvramMagic : UInt32 := 0x48534c46

def nvramVersion : UInt32 := 1

def sdramInit : UInt32 := 0x419

def sdramConfig : UInt32 := 0x0000

/-- `SDRAM_REF(0x40)` -/
def sdramRefresh : UInt32 := 0x40 &&& 0xff ||| 0x8000

/-- `sizeof(nvram_header_t)` -/
def sizeofHeader : Nat := 20

/-- `NVRAM_CRC_START_POSITION` -/
def crcStart : Nat := 9

/-- The bytes of a word. -/
def le32 (v : UInt32) : List UInt8 := (List.range 4).map (storeLE 4 v.toNat)

/-- The word at an address. -/
def word (m : Mem) (pos : Nat) : UInt32 := UInt32.ofNat (loadLE 4 fun i => m (pos + i))

def Header.bytes (h : Header) : List UInt8 :=
  le32 h.magic ++ le32 h.len ++ le32 h.crcVerInit ++ le32 h.configRefresh ++ le32 h.configNcdl

/-- The header at an address. -/
def readHeader (m : Mem) (pos : Nat) : Header :=
  { magic := word m pos, len := word m (pos + 4), crcVerInit := word m (pos + 8)
    configRefresh := word m (pos + 12), configNcdl := word m (pos + 16) }

def crc8Table : List UInt8 :=
  [
    0x00, 0xf7, 0xb9, 0x4e, 0x25, 0xd2, 0x9c, 0x6b, 0x4a, 0xbd, 0xf3, 0x04, 0x6f, 0x98, 0xd6, 0x21,
    0x94, 0x63, 0x2d, 0xda, 0xb1, 0x46, 0x08, 0xff, 0xde, 0x29, 0x67, 0x90, 0xfb, 0x0c, 0x42, 0xb5,
    0x7f, 0x88, 0xc6, 0x31, 0x5a, 0xad, 0xe3, 0x14, 0x35, 0xc2, 0x8c, 0x7b, 0x10, 0xe7, 0xa9, 0x5e,
    0xeb, 0x1c, 0x52, 0xa5, 0xce, 0x39, 0x77, 0x80, 0xa1, 0x56, 0x18, 0xef, 0x84, 0x73, 0x3d, 0xca,
    0xfe, 0x09, 0x47, 0xb0, 0xdb, 0x2c, 0x62, 0x95, 0xb4, 0x43, 0x0d, 0xfa, 0x91, 0x66, 0x28, 0xdf,
    0x6a, 0x9d, 0xd3, 0x24, 0x4f, 0xb8, 0xf6, 0x01, 0x20, 0xd7, 0x99, 0x6e, 0x05, 0xf2, 0xbc, 0x4b,
    0x81, 0x76, 0x38, 0xcf, 0xa4, 0x53, 0x1d, 0xea, 0xcb, 0x3c, 0x72, 0x85, 0xee, 0x19, 0x57, 0xa0,
    0x15, 0xe2, 0xac, 0x5b, 0x30, 0xc7, 0x89, 0x7e, 0x5f, 0xa8, 0xe6, 0x11, 0x7a, 0x8d, 0xc3, 0x34,
    0xab, 0x5c, 0x12, 0xe5, 0x8e, 0x79, 0x37, 0xc0, 0xe1, 0x16, 0x58, 0xaf, 0xc4, 0x33, 0x7d, 0x8a,
    0x3f, 0xc8, 0x86, 0x71, 0x1a, 0xed, 0xa3, 0x54, 0x75, 0x82, 0xcc, 0x3b, 0x50, 0xa7, 0xe9, 0x1e,
    0xd4, 0x23, 0x6d, 0x9a, 0xf1, 0x06, 0x48, 0xbf, 0x9e, 0x69, 0x27, 0xd0, 0xbb, 0x4c, 0x02, 0xf5,
    0x40, 0xb7, 0xf9, 0x0e, 0x65, 0x92, 0xdc, 0x2b, 0x0a, 0xfd, 0xb3, 0x44, 0x2f, 0xd8, 0x96, 0x61,
    0x55, 0xa2, 0xec, 0x1b, 0x70, 0x87, 0xc9, 0x3e, 0x1f, 0xe8, 0xa6, 0x51, 0x3a, 0xcd, 0x83, 0x74,
    0xc1, 0x36, 0x78, 0x8f, 0xe4, 0x13, 0x5d, 0xaa, 0x8b, 0x7c, 0x32, 0xc5, 0xae, 0x59, 0x17, 0xe0,
    0x2a, 0xdd, 0x93, 0x64, 0x0f, 0xf8, 0xb6, 0x41, 0x60, 0x97, 0xd9, 0x2e, 0x45, 0xb2, 0xfc, 0x0b,
    0xbe, 0x49, 0x07, 0xf0, 0x9b, 0x6c, 0x22, 0xd5, 0xf4, 0x03, 0x4d, 0xba, 0xd1, 0x26, 0x68, 0x9f]

def hndcrc8 (pdata : List UInt8) (crc : UInt8) : UInt8 :=
  pdata.foldl (fun crc b => crc8Table.getD (crc ^^^ b).toNat 0) crc

/-! ### The hash table -/

/-- `hash`, where a `char` may be signed. -/
def hash (d : Device) (s : CString) : UInt32 :=
  s.1.foldl (fun hash c => 31 * hash +
    if d.charSigned ∧ c ≥ 128 then UInt32.ofNat (c.toNat + (2 ^ 32 - 256)) else c.toUInt32) 0

/-- `NVRAM_ARRAYSIZE(h->nvram_hash)` as a loop bound. -/
def numBuckets : Nat := 257

/-- `hash(name) % NVRAM_ARRAYSIZE(h->nvram_hash)`; the macro is a quotient without brackets. -/
def bucket (d : Device) (name : CString) : Nat :=
  (hash d name).toNat % (numBuckets * d.ptrSize) / d.ptrSize

/-- `nvram_hash`: a name is only in its own chain, and there once. -/
structure Table (d : Device) where
  chain : Nat → List Tuple
  bucket_eq : ∀ i, ∀ t ∈ chain i, bucket d t.1 = i
  nodup : ∀ i, (Assoc.keys (chain i)).Nodup

/-- `h->mmap`, `h->offset` and `h->nvram_hash`; `h->length` is `partSize`. -/
structure Handle (d : Device) where
  image : Mem
  offset : Nat
  table : Table d

namespace Table

variable {d : Device}

/-- After `_nvram_free`. -/
def empty : Table d where
  chain _ := []
  bucket_eq _ _ h := absurd h List.not_mem_nil
  nodup _ := List.nodup_nil

/-- The table with one chain changed. -/
def update (tab : Table d) (i : Nat) (l : List Tuple) (hbucket : ∀ t ∈ l, bucket d t.1 = i)
    (hl : (Assoc.keys l).Nodup) : Table d where
  chain j := if j = i then l else tab.chain j
  bucket_eq j t ht := by
    split at ht
    · rename_i h
      rw [h]
      exact hbucket t ht
    · exact tab.bucket_eq j t ht
  nodup j := by
    split
    · exact hl
    · exact tab.nodup j

def get (tab : Table d) (name : CString) : Option CString :=
  (tab.chain (bucket d name)).lookup name

def set (tab : Table d) (name value : CString) : Table d :=
  tab.update (bucket d name) (Assoc.put name value (tab.chain (bucket d name)))
    (by
      intro t ht
      have hmem : t.1 ∈ Assoc.keys (Assoc.put name value (tab.chain (bucket d name))) :=
        List.mem_map_of_mem ht
      rw [Assoc.keys_put] at hmem
      have hold : ∀ k ∈ Assoc.keys (tab.chain (bucket d name)), bucket d k = bucket d name := by
        intro k hk
        obtain ⟨t', ht', rfl⟩ := List.mem_map.mp hk
        exact tab.bucket_eq _ t' ht'
      split at hmem
      · exact hold _ hmem
      · obtain heq | hmem := List.mem_cons.mp hmem
        · rw [heq]
        · exact hold _ hmem)
    (Assoc.nodup_put (tab.nodup _) name value)

def unset (tab : Table d) (name : CString) : Table d :=
  tab.update (bucket d name) (Assoc.del name (tab.chain (bucket d name)))
    (fun t ht => tab.bucket_eq _ t ((Assoc.sublist_del name _).subset ht))
    (Assoc.nodup_del (tab.nodup _) name)

/-- All tuples, chain by chain. -/
def tuples (tab : Table d) : List Tuple := (List.range numBuckets).flatMap tab.chain

end Table

variable {d : Device}

def nvramGet (h : Handle d) (name : CString) : Option CString := h.table.get name

/-- `h->length - h->offset`, an `unsigned int`. -/
def room (d : Device) (offset : Nat) : Nat :=
  if offset ≤ d.partSize then d.partSize - offset else 2 ^ 32 - (offset - d.partSize)

/-- The handle and the return value; `_nvram_realloc` refuses a long value. -/
def nvramSet (h : Handle d) (name value : CString) : Handle d × Int :=
  if strlen value + 1 > room d h.offset then (h, -12)
  else ({ h with table := h.table.set name value }, 0)

def nvramUnset (h : Handle d) (name : CString) : Handle d × Int :=
  ({ h with table := h.table.unset name }, 0)

/-! ### `_nvram_rehash` -/

/-- `=` -/
def eqSign : UInt8 := 61

/-- What stands in front of a NUL has none. -/
private theorem zero_notMem_takeWhile (l : List UInt8) (p : UInt8 → Bool) (h : p 0 = false) :
    0 ∉ l.takeWhile p := by
  intro hmem
  have := List.mem_takeWhile_imp hmem
  rw [h] at this
  cases this

/-- A string up to its NUL. -/
def cstr (l : List UInt8) : CString :=
  ⟨l.takeWhile (· != 0), zero_notMem_takeWhile l _ rfl⟩

/-- The name in front of `=`. -/
def nameOf (l : List UInt8) : CString :=
  ⟨l.takeWhile fun c => c != 0 && c != eqSign, zero_notMem_takeWhile l _ rfl⟩

/-- Parse `name=value\0 ... \0\0` in the bytes up to the end of the mapping. The first argument
    bounds the number of tuples. -/
def parse : Nat → List UInt8 → Except Fault (List Tuple)
  | 0, _ => .error .outside
  | fuel + 1, rest =>
    match rest with
    | [] => .error .outside
    | c :: _ =>
      -- an empty name ends the list
      if c = 0 then .ok []
      else
        match rest.drop (strlen (nameOf rest)) with
        | [] => .error .outside
        | eq :: value =>
          -- a name without `=`
          if eq = 0 then .ok []
          else if strlen (cstr value) < value.length then do
            let more ← parse fuel (value.drop (strlen (cstr value) + 1))
            pure ((nameOf rest, cstr value) :: more)
          else .error .outside

def hexDigit (n : Nat) : UInt8 := if n < 10 then UInt8.ofNat (48 + n) else UInt8.ofNat (55 + n)

/-- `sprintf(buf, "0x%0<n>X", v)` for a `v` of at most `n` digits. -/
def sprintfHex (n v : Nat) : CString :=
  ⟨48 :: 120 :: (List.range n).map fun i => hexDigit (v / 16 ^ (n - 1 - i) % 16), by
    have hdigit : ∀ k < 16, hexDigit k ≠ 0 := by decide
    simp only [List.mem_cons, List.mem_map, not_or]
    refine ⟨by decide, by decide, fun hmem => ?_⟩
    obtain ⟨i, -, hi⟩ := hmem
    exact hdigit _ (Nat.mod_lt _ (by decide)) hi⟩

/-- `"sdram_init"` and its siblings. -/
def sdramInitName : CString := ⟨[115, 100, 114, 97, 109, 95, 105, 110, 105, 116], by decide⟩

def sdramConfigName : CString :=
  ⟨[115, 100, 114, 97, 109, 95, 99, 111, 110, 102, 105, 103], by decide⟩

def sdramRefreshName : CString :=
  ⟨[115, 100, 114, 97, 109, 95, 114, 101, 102, 114, 101, 115, 104], by decide⟩

def sdramNcdlName : CString := ⟨[115, 100, 114, 97, 109, 95, 110, 99, 100, 108], by decide⟩

/-- The special SDRAM parameters as the header has them. -/
def sdramParams (header : Header) : List Tuple :=
  [(sdramInitName, sprintfHex 4 (header.crcVerInit >>> 16 &&& 0xffff).toNat),
    (sdramConfigName, sprintfHex 4 (header.configRefresh &&& 0xffff).toNat),
    (sdramRefreshName, sprintfHex 4 (header.configRefresh >>> 16 &&& 0xffff).toNat),
    (sdramNcdlName, sprintfHex 8 header.configNcdl.toNat)]

/-- `if (!nvram_get(h, name)) nvram_set(h, name, buf)` -/
def setAbsent (h : Handle d) (t : Tuple) : Handle d :=
  match nvramGet h t.1 with
  | some _ => h
  | none => (nvramSet h t.1 t.2).1

/-- The bytes behind the header. -/
def dataBytes (h : Handle d) : List UInt8 :=
  bytesAt h.image (h.offset + sizeofHeader) (d.mapLen - (h.offset + sizeofHeader))

def nvramRehash (h : Handle d) : Except Fault (Handle d) := do
  let tuples ← parse (dataBytes h).length (dataBytes h)
  let h' := tuples.foldl (fun h t => (nvramSet h t.1 t.2).1) { h with table := .empty }
  pure ((sdramParams (readHeader h.image h.offset)).foldl setAbsent h')

/-! ### `nvram_commit` -/

def isSpace (c : UInt8) : Bool := c == 32 || (9 ≤ c && c ≤ 13)

/-- The value of a digit, 255 for other characters. -/
def digitVal (c : UInt8) : Nat :=
  if 48 ≤ c ∧ c ≤ 57 then c.toNat - 48
  else if 97 ≤ c ∧ c ≤ 122 then c.toNat - 87
  else if 65 ≤ c ∧ c ≤ 90 then c.toNat - 55
  else 255

/-- The base that `strtoul` takes from a prefix, and the digits behind it. -/
def splitBase (s : List UInt8) : Nat × List UInt8 :=
  match s with
  | 48 :: x :: c :: rest =>
    if (x = 120 ∨ x = 88) ∧ digitVal c < 16 then (16, c :: rest) else (8, s)
  | 48 :: _ => (8, s)
  | _ => (10, s)

/-- `strtoul(s, NULL, 0)` -/
def strtoul (d : Device) (s : CString) : Nat :=
  let text := s.1.dropWhile isSpace
  let neg := text.head? = some 45
  let text := if neg ∨ text.head? = some 43 then text.tail else text
  let (base, text) := splitBase text
  let v := (text.takeWhile fun c => decide (digitVal c < base)).foldl
    (fun v c => v * base + digitVal c) 0
  if v ≥ 2 ^ d.longBits then 2 ^ d.longBits - 1
  else if neg then (2 ^ d.longBits - v) % 2 ^ d.longBits
  else v

/-- The regenerated header, before its length and its CRC are set. -/
def newHeader (h : Handle d) : Header :=
  match nvramGet h sdramInitName, nvramGet h sdramConfigName, nvramGet h sdramRefreshName,
      nvramGet h sdramNcdlName with
  | some init, some config, some refresh, some ncdl =>
    { magic := nvramMagic, len := 0
      crcVerInit := nvramVersion <<< 8 ||| (UInt32.ofNat (strtoul d init) &&& 0xffff) <<< (16 : UInt32)
      configRefresh := (UInt32.ofNat (strtoul d config) &&& 0xffff) |||
        (UInt32.ofNat (strtoul d refresh) &&& 0xffff) <<< (16 : UInt32)
      configNcdl := UInt32.ofNat (strtoul d ncdl) }
  | _, _, _, _ =>
    { magic := nvramMagic, len := 0, crcVerInit := nvramVersion <<< 8 ||| sdramInit <<< 16
      configRefresh := sdramConfig ||| sdramRefresh <<< 16, configNcdl := 0 }

/-- `"%s=%s"` and its NUL. -/
def tupleBytes (t : Tuple) : List UInt8 := t.1.1 ++ eqSign :: t.2.1 ++ [0]

/-- The tuples of one chain behind the bytes `area` already written; `data` is where these start
    and `stop` what the source calls `end`. -/
def writeChain (data stop : Nat) : List UInt8 → List Tuple → List UInt8
  | area, [] => area
  | area, t :: ts =>
    if data + area.length + strlen t.1 + 1 + strlen t.2 + 1 > stop then area
    else writeChain data stop (area ++ tupleBytes t) ts

/-- Write out all tuples. -/
def writeTuples (data stop : Nat) (tab : Table d) : List UInt8 :=
  (List.range numBuckets).foldl (fun area i => writeChain data stop area (tab.chain i)) []

/-- `(int)ptr % 4` for an address, and the bytes that are cleared then. -/
def padLen (addr : Nat) : Nat :=
  let int : Int := if addr % 2 ^ 32 < 2 ^ 31 then (addr % 2 ^ 32 : Nat) else
    (addr % 2 ^ 32 : Nat) - 2 ^ 32
  if int.tmod 4 ≠ 0 then (4 - int.tmod 4).toNat else 0

/-- `NVRAM_ROUNDUP(x, 4)` -/
def roundup4 (x : Nat) : Nat := (x + (4 - 1)) / 4 * 4

/-- The image with the data area cleared up to `nvram_part_size`, the tuples, a double NUL and
    `pad` more bytes. -/
def writeData (h : Handle d) (area : List UInt8) (pad : Nat) : Mem :=
  let data := h.offset + sizeofHeader
  let image := writeBytes h.image data (List.replicate (d.partSize - data) 0xff)
  let image := writeBytes image data area
  writeBytes image (data + area.length) (0 :: List.replicate pad 0)

/-- Set the length and the CRC8, which is over the last 11 bytes of the header and the data. -/
def finishHeader (image : Mem) (offset : Nat) (header : Header) (len : Nat) : Header :=
  let crc := hndcrc8 (header.bytes.drop crcStart) 0xff
  let crc := hndcrc8 (bytesAt image (offset + sizeofHeader) (len - sizeofHeader)) crc
  { header with len := UInt32.ofNat len, crcVerInit := header.crcVerInit ||| crc.toUInt32 }

def nvramCommit (h : Handle d) : Except Fault (Handle d) :=
  let data := h.offset + sizeofHeader
  -- `memset` takes a negative length for a very long one
  if d.partSize < data then .error .outside
  else
    -- leave space for a double NUL at the end
    let area := writeTuples data (d.partSize - 2) h.table
    let ptr := data + area.length
    let pad := padLen (d.base + (ptr + 1))
    if ptr + 1 + pad > d.mapLen then .error .outside
    else
      let image := writeData h area pad
      let header := finishHeader image h.offset (newHeader h) (roundup4 (ptr + 2 - h.offset))
      nvramRehash { h with image := writeBytes image h.offset header.bytes }

/-! ### `nvram_open` and `do_info` -/

/-- The search for `NVRAM_MAGIC` from word `i` on; the first argument bounds the words in the
    mapping, `limit` is the last index that is tried. -/
def findMagic (d : Device) (image : Mem) (limit : Nat) : Nat → Nat → Except Fault (Option Nat)
  | 0, _ => .error .outside
  | fuel + 1, i =>
    if i > limit then .ok none
    else if 4 * i + 4 > d.mapLen then .error .outside
    else if word image (4 * i) = nvramMagic then .ok (some (4 * i))
    else findMagic d image limit fuel (i + 1)

/-- `(nvram_part_size - NVRAM_MIN_SPACE) / sizeof(uint32_t)` -/
def magicLimit (d : Device) : Nat :=
  if d.partSize ≥ nvramMinSpace then (d.partSize - nvramMinSpace) / 4
  else (2 ^ (8 * d.ptrSize) + d.partSize - nvramMinSpace) / 4

/-- Open an image; `none` is NULL. -/
def nvramOpen (d : Device) (image : Mem) (rdonly : Bool) : Except Fault (Option (Handle d)) := do
  match ← findMagic d image (magicLimit d) (d.mapLen / 4 + 1) 0 with
  | none => pure none
  | some offset =>
    if !rdonly ∧ offset + 8 > d.mapLen then .error .outside
    else if rdonly ∨ (readHeader image offset).len.toNat < room d offset then do
      let h ← nvramRehash { image := image, offset := offset, table := .empty }
      pure (some h)
    else pure none

/-- `findMagic` where the bytes from `stop` on are outside. -/
def findMagicIn (image : Mem) (stop limit : Nat) : Nat → Nat → Except Fault (Option Nat)
  | 0, _ => .error .outside
  | fuel + 1, i =>
    if i > limit then .ok none
    else if 4 * i + 4 > stop then .error .outside
    else if word image (4 * i) = nvramMagic then .ok (some (4 * i))
    else findMagicIn image stop limit fuel (i + 1)

/-- The bytes behind the header, up to `stop`. -/
def dataIn (image : Mem) (stop offset : Nat) : List UInt8 :=
  bytesAt image (offset + sizeofHeader) (stop - (offset + sizeofHeader))

/-- `nvramRehash` where the bytes from `stop` on are outside. -/
def nvramRehashIn (stop : Nat) (h : Handle d) : Except Fault (Handle d) := do
  let tuples ← parse (dataIn h.image stop h.offset).length (dataIn h.image stop h.offset)
  let h' := tuples.foldl (fun h t => (nvramSet h t.1 t.2).1) { h with table := .empty }
  pure ((sdramParams (readHeader h.image h.offset)).foldl setAbsent h')

/-- `nvram_open` where the bytes from `stop` on are outside; without a size there is no mapping. -/
def nvramOpenIn (d : Device) (stop : Nat) (image : Mem) (rdonly : Bool) :
    Except Fault (Option (Handle d)) := do
  if d.partSize = 0 then pure none
  else
    match ← findMagicIn image stop (magicLimit d) (stop / 4 + 1) 0 with
    | none => pure none
    | some offset =>
      if !rdonly ∧ offset + 8 > stop then .error .outside
      else if rdonly ∨ (readHeader image offset).len.toNat < room d offset then do
        let h ← nvramRehashIn stop { image := image, offset := offset, table := .empty }
        pure (some h)
      else pure none

/-- The CRC that `do_info` calculates. -/
def infoCrc (h : Handle d) : UInt8 :=
  hndcrc8 (bytesAt h.image (h.offset + crcStart)
    ((readHeader h.image h.offset).len - 9).toNat) 0xff

end HandsomeMod.Native.Nvram

/-!
## The tuples of `libnvram` in memory

Embeds `_nvram_free`, `_nvram_realloc`, `nvram_get`, `nvram_set`, `nvram_unset` and `nvram_getall` of
`package/utils/nvram/src/nvram.c` with their pointers: a tuple is a node of a chained list, of the
chain of its bucket or of the dead table. A name and a value are strings of the tuple; a value is
`none` before it is copied. Allocations succeed in `Heap.set`, those of `Heap.setWith` may fail. A
freed address is not used again.

A result is `none` if the turns of the model do not suffice.
-/

namespace HandsomeMod.Native.Nvram

open ForStd

/-- `&h->nvram_hash[i]` and `&h->nvram_dead` -/
inductive Head where
  | bucket (i : Nat)
  | dead
  deriving DecidableEq

/-- The tuples at their addresses; `malloc` returns `brk` next. -/
structure Heap where
  name : Nat → CString
  value : Nat → Option CString
  links : Links Head
  brk : Nat

/-- `_nvram_free`: no chain is left. -/
def Heap.free (h : Heap) : Heap := { h with links := { h.links with head := fun _ => none } }

variable (d : Device)

/-- Hash the name and find the associated tuple: `prev`, with the tuple or NULL behind it. -/
def Heap.find (h : Heap) (name : CString) : Option (Slot Head) :=
  h.links.find (fun t => decide (h.name t = name)) (h.brk + 1) (.head (.bucket (bucket d name)))

/-- `nvram_get` -/
def Heap.get (h : Heap) (name : CString) : Option (Option CString) := do
  let prev ← h.find d name
  match h.links.read prev with
  | some t => some (h.value t)
  | none => some none

/-- `malloc` of a tuple with its name. -/
def Heap.alloc (h : Heap) (name : CString) : Heap × Nat :=
  ({ h with
    name := Function.update h.name h.brk name
    value := Function.update h.value h.brk none
    brk := h.brk + 1 }, h.brk)

/-- `_nvram_realloc`; `none` is NULL. -/
def Heap.realloc (h : Heap) (offset : Nat) (t : Option Nat) (name value : CString) :
    Option (Heap × Nat) :=
  if strlen value + 1 > room d offset then none
  else
    let (h, t) :=
      match t with
      | none => h.alloc name
      | some t => (h, t)
    -- copy the value
    if h.value t ≠ some value then
      some ({ h with value := Function.update h.value t (some value) }, t)
    else some (h, t)

/-- Put a tuple in front of a list. -/
def Heap.push (h : Heap) (head : Head) (t : Nat) : Heap :=
  { h with links := (h.links.write (.next t) (h.links.head head)).write (.head head) (some t) }

/-- Move the tuple behind `prev` to the dead table. -/
def Heap.bury (h : Heap) (prev : Slot Head) (t : Nat) : Heap :=
  { h with links := h.links.write prev (h.links.next t) }.push .dead t

/-- `nvram_set` -/
def Heap.set (h : Heap) (offset : Nat) (name value : CString) : Option (Heap × Int) := do
  let prev ← h.find d name
  let t := h.links.read prev
  match h.realloc d offset t name value with
  | none => some (h, -12)
  | some (h, u) =>
    -- value reallocated
    if t = some u then some (h, 0)
    else
      let h :=
        match t with
        | some t => h.bury prev t
        | none => h
      some (h.push (.bucket (bucket d name)) u, 0)

/-- `nvram_unset` -/
def Heap.unset (h : Heap) (name : CString) : Option (Heap × Int) := do
  let prev ← h.find d name
  match h.links.read prev with
  | some t => some (h.bury prev t, 0)
  | none => some (h, 0)

/-- The inner loop of `nvram_getall`, from the tuple at `t` on: every tuple is put in front of the
    list `l`. The first argument bounds the turns. -/
def Heap.getChain (h : Heap) :
    Nat → Option Nat → List (CString × Option CString) → Option (List (CString × Option CString))
  | _, none, l => some l
  | 0, some _, _ => none
  | fuel + 1, some t, l => getChain h fuel (h.links.next t) ((h.name t, h.value t) :: l)

/-- `nvram_getall` -/
def Heap.getall (h : Heap) : Option (List (CString × Option CString)) :=
  (List.range numBuckets).foldlM
    (fun l i => h.getChain h.brk (h.links.head (.bucket i)) l) []

/-! ### Allocations that fail -/

/-- Which allocations of a call succeed. -/
structure Allocs where
  malloc : Bool
  realloc : Bool
  deriving DecidableEq

/-- A tuple for the name, unless one was found. -/
def Heap.ensure (h : Heap) (a : Allocs) (t : Option Nat) (name : CString) : Option (Heap × Nat) :=
  match t with
  | some t => some (h, t)
  | none => if a.malloc then some (h.alloc name) else none

/-- `t->value = (char *) realloc(t->value, strlen(value)+1)`: NULL if the memory is not there. -/
def Heap.storeValue (h : Heap) (a : Allocs) (t : Nat) (value : CString) : Heap × Option Nat :=
  if a.realloc then ({ h with value := Function.update h.value t (some value) }, some t)
  else ({ h with value := Function.update h.value t none }, none)

/-- `_nvram_realloc` with these allocations: the tuples, and the tuple that it returns. -/
def Heap.reallocWith (h : Heap) (a : Allocs) (offset : Nat) (t : Option Nat)
    (name value : CString) : Heap × Option Nat :=
  if strlen value + 1 > room d offset then (h, none)
  else
    match h.ensure a t name with
    | none => (h, none)
    | some (h, t) => if h.value t ≠ some value then h.storeValue a t value else (h, some t)

/-- `nvram_set` with these allocations. -/
def Heap.setWith (h : Heap) (a : Allocs) (offset : Nat) (name value : CString) :
    Option (Heap × Int) := do
  let prev ← h.find d name
  let t := h.links.read prev
  match h.reallocWith d a offset t name value with
  -- `-ENOMEM`, with the table as it was
  | (h, none) => some (h, -12)
  | (h, some u) =>
    -- value reallocated
    if t = some u then some (h, 0)
    else
      let h :=
        match t with
        -- the old tuple goes to the list of the dead ones
        | some t => h.bury prev t
        | none => h
      some (h.push (.bucket (bucket d name)) u, 0)

end HandsomeMod.Native.Nvram
