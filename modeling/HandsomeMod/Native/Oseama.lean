import HandsomeMod.ForStd.CDecimal
import HandsomeMod.Native.Seama

/-!
# `oseama info` and `oseama extract`

Embeds the two commands of `oseama.c` from the parsed options to the result. `size_t` and `long`
have `w` bits, so that a seek can go backwards. Accesses of the buffers are checked, and writes can
fail: when they are made, or when the buffered bytes are written at last.
-/

namespace HandsomeMod.Native.Oseama

open ForStd

inductive Stop where
  /-- An access outside of a buffer. -/
  | bounds
  /-- The turns of the model do not suffice. -/
  | fuel
  deriving DecidableEq, Repr

/-- A `size_t` that is converted to a `long`. -/
def toLong (w n : Nat) : Int :=
  if n % 2 ^ w < 2 ^ (w - 1) then ↑(n % 2 ^ w) else ↑(n % 2 ^ w) - 2 ^ w

/-- `fseek(f, off, SEEK_CUR)`, which fails in front of the file. -/
def seekCur (w pos off : Nat) : Nat :=
  if (pos : Int) + toLong w off < 0 then pos else ((pos : Int) + toLong w off).toNat

/-- `uint8_t buf[1024]` -/
def bufSize : Nat := 1024

/-! ### Info -/

/-- `buf[i] = v` -/
def setByte (buf : List UInt8) (i : Int) (v : UInt8) : Except Stop (List UInt8) :=
  if 0 ≤ i ∧ i < buf.length then .ok (buf.set i.toNat v) else .error .bounds

/-- The string at `tmp`. -/
def stringAt (buf : List UInt8) (tmp : Nat) : Except Stop (List UInt8) :=
  if 0 ∈ buf.drop tmp then .ok ((buf.drop tmp).takeWhile (· != 0)) else .error .bounds

/-- `for (tmp = buf; tmp < end && strlen(tmp); tmp += strlen(tmp) + 1)`, with the lines. -/
def metaLoop (buf : List UInt8) (stop : Int) : Nat → Nat → Except Stop (List (List UInt8))
  | 0, _ => .error .fuel
  | fuel + 1, tmp =>
    if tmp < stop then do
      let s ← stringAt buf tmp
      if s.length ≠ 0 then
        let rest ← metaLoop buf stop fuel (tmp + s.length + 1)
        return (ascii "Meta entry:\t" ++ s) :: rest
      else return []
    else return []

/-- The meta data in `buf` is terminated and printed: the buffer and the lines. -/
def printMeta (buf : List UInt8) (metasize : Nat) :
    Except Stop (List UInt8 × List (List UInt8)) := do
  let buf ← setByte buf (metasize - 1) 0
  let lines ← metaLoop buf (metasize - 1) (bufSize + 1) 0
  return (buf, lines)

/-- `printf("<label>\t%zd\n", n)` -/
def sizeLine (w : Nat) (label : List UInt8) (n : Nat) : List UInt8 :=
  label ++ ascii "\t" ++ intText (toLong w n)

/-- The loop of `oseama_info_entities`: the lines and `err`. -/
def oseamaInfoEntities (w : Nat) (seama : List UInt8) (entityIdx : Int) :
    Nat → Nat → Nat → List UInt8 → List (List UInt8) → Except Stop (List (List UInt8) × Int)
  | 0, _, _, _, _ => .error .fuel
  | fuel + 1, pos, i, buf, lines =>
    let hdr := readAt seama pos sizeofEntityHdr
    if hdr.length = sizeofEntityHdr then
      if beField 4 hdr 0 ≠ seamaMagic then return (lines, -22)
      else
        let metasize := beField 2 hdr 6
        let imagesize := beField 4 hdr 8
        let pos := pos + sizeofEntityHdr
        -- seek past the entities that were not asked for
        if entityIdx ≥ 0 ∧ i ≠ entityIdx then
          oseamaInfoEntities w seama entityIdx fuel (seekCur w pos (metasize + imagesize)) (i + 1)
            buf lines
        else if metasize ≥ bufSize then return (lines, -22)
        else
          let lines := lines ++ (if entityIdx < 0 then [[]] else []) ++
            [sizeLine w (ascii "Entity offset:") (pos - sizeofEntityHdr),
              sizeLine w (ascii "Entity size:") (sizeofEntityHdr + metasize + imagesize),
              sizeLine w (ascii "Meta size:") metasize,
              sizeLine w (ascii "Image size:") imagesize]
          let bytes := readAt seama pos metasize
          if bytes.length ≠ metasize then return (lines, -5)
          else do
            -- the buffer keeps what the last entity left behind the new bytes
            let (buf, entries) ← printMeta (Seama.overwrite buf bytes) metasize
            oseamaInfoEntities w seama entityIdx fuel
              (seekCur w (pos + bytes.length) imagesize) (i + 1) buf (lines ++ entries)
    else return (lines, 0)

/-- `oseama_info` with a file that can be opened, or without one: the lines and what is returned.
    The buffers hold something before. -/
def oseamaInfo (w fuel : Nat) (entityIdx : Int) (buf bufEntities : List UInt8)
    (seama : Option (List UInt8)) : Except Stop (List (List UInt8) × Int) :=
  match seama with
  | none => return ([], -13)
  | some seama =>
    let hdr := readAt seama 0 sizeofSealHdr
    if hdr.length ≠ sizeofSealHdr then return ([], -5)
    else
      let metasize := beField 2 hdr 6
      let imagesize := beField 4 hdr 8
      if beField 4 hdr 0 ≠ seamaMagic then return ([], -22)
      -- metadata that do not fit into the buffer are refused
      else if metasize ≥ bufSize then return ([], -22)
      else if imagesize ≠ 0 then return ([], -22)
      else
        let bytes := readAt seama sizeofSealHdr metasize
        if bytes.length ≠ metasize then return ([], -5)
        else do
          -- the seal's own metadata are shown when no entity is asked for
          let lines ← if entityIdx < 0 then do
              let (_, entries) ← printMeta (Seama.overwrite buf bytes) metasize
              pure ([ascii "Meta size:\t" ++ decText metasize,
                ascii "Image size:\t" ++ decText imagesize] ++ entries)
            else pure []
          let (lines, _) ← oseamaInfoEntities w seama entityIdx fuel
            (sizeofSealHdr + bytes.length) 0 bufEntities lines
          -- what `oseama_info_entities` returns is dropped
          return (lines, 0)

/-! ### Extract -/

/-- Where the output goes. -/
structure Disk where
  /-- The bytes that `fwrite` takes. -/
  room : Nat
  /-- The bytes that are in the file behind `fclose`. -/
  kept : Nat

/-- `fwrite`: the bytes so far, and how many more there are. -/
def fwrite (room : Nat) (out buf : List UInt8) : List UInt8 × Nat :=
  (out ++ buf.take (room - out.length), min buf.length (room - out.length))

/-- The loop that copies an entity: the output, what is left of `length` and `err`. -/
def copyEntity (seama : List UInt8) (room : Nat) :
    Nat → Nat → Nat → List UInt8 → Except Stop (List UInt8 × Nat × Int)
  | 0, _, _, _ => .error .fuel
  | fuel + 1, pos, length, out =>
    let buf := readAt seama pos (min bufSize length)
    if buf.length > 0 then
      let r := fwrite room out buf
      if r.2 ≠ buf.length then return (r.1, length, -5)
      else copyEntity seama room fuel (pos + buf.length) (length - buf.length) r.1
    else return (out, length, 0)

/-- The loop of `oseama_extract_entity`: the output and `err`. -/
def oseamaExtractEntity (w : Nat) (seama : List UInt8) (room : Nat) (entityIdx : Int) :
    Nat → Nat → Nat → Except Stop (List UInt8 × Int)
  | 0, _, _ => .error .fuel
  | fuel + 1, pos, i =>
    let hdr := readAt seama pos sizeofEntityHdr
    if hdr.length = sizeofEntityHdr then
      if beField 4 hdr 0 ≠ seamaMagic then return ([], -22)
      else
        let metasize := beField 2 hdr 6
        let imagesize := beField 4 hdr 8
        let pos := pos + sizeofEntityHdr
        if i ≠ entityIdx then
          oseamaExtractEntity w seama room entityIdx fuel (seekCur w pos (metasize + imagesize))
            (i + 1)
        else do
          -- back to the start of the header, which is copied with the entity
          let pos := seekCur w pos (2 ^ w - sizeofEntityHdr)
          let length := (sizeofEntityHdr + metasize + imagesize) % 2 ^ w
          let (out, length, err) ← copyEntity seama room (seama.length + 1) pos length []
          if length ≠ 0 then return (out, -5) else return (out, err)
    else return ([], 0)

/-- `oseama_extract` with files that can be opened, or without: the output file, if there is one,
    and what is returned. -/
def oseamaExtract (w : Nat) (entityIdx : Int) (outPath : Option (Option Disk))
    (seama : Option (List UInt8)) : Except Stop (Option (List UInt8) × Int) :=
  if entityIdx < 0 then return (none, -22)
  else
    match outPath with
    | none => return (none, -22)
    | some out =>
      match seama, out with
      | none, _ => return (none, -13)
      | some _, none => return (none, -13)
      | some seama, some disk =>
        let hdr := readAt seama 0 sizeofSealHdr
        if hdr.length ≠ sizeofSealHdr then return (some [], -5)
        else do
          let metasize := beField 2 hdr 6
          -- a turn for each entity up to the one with the index
          let (out, _) ← oseamaExtractEntity w seama disk.room entityIdx (entityIdx.toNat + 1)
            (seekCur w sizeofSealHdr metasize) 0
          -- what `oseama_extract_entity` returns is dropped
          return (some (out.take disk.kept), 0)

end HandsomeMod.Native.Oseama
