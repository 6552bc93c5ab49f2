import HandsomeMod.ForStd.CStream

/-!
# The Seama tools

Embeds `seama.c` and the extraction of `oseama.c`. A file is the list of its bytes. Files can be
opened, writes succeed. MD5 is a parameter.
-/

namespace HandsomeMod.Native.Seama

open ForStd

def seamaMagic : Nat := 0x5ea3a417

def maxSeamaMetaSize : Nat := 1024

def maxMeta : Nat := 128

/-- `sizeof(seamahdr_t)` -/
def sizeofHdr : Nat := 12

/-- `READ_BUFF_SIZE` -/
def readBuffSize : Nat := 8 * 1024

/-- A string given with `-m`. -/
abbrev Meta := { s : List UInt8 // 0 ∉ s }

/-- What `MD5_Final` returns. -/
abbrev Digest := { d : List UInt8 // d.length = 16 }

/-- The arguments of an option that `parse_args` keeps: it reports those behind the first `max`. -/
def parseArgs {α : Type} (max : Nat) (args : List α) : List α := args.take max

variable (md5 : List UInt8 → Digest)

/-! ### Digest and copy -/

/-- The loop of `calculate_digest`: the bytes of all updates. -/
def digestLoop (size : Nat) : Nat → CStream → Nat → List UInt8 → List UInt8 × CStream
  | 0, fh, _, ctx => (ctx, fh)
  | fuel + 1, fh, bytesLeft, ctx =>
    if fh.eof = false ∧ bytesLeft > 0 then
      let r := fh.fread (min bytesLeft maxSeamaMetaSize)
      digestLoop size fuel r.2 (if size ≠ 0 then bytesLeft - r.1.length else bytesLeft)
        (ctx ++ r.1)
    else (ctx, fh)

/-- `calculate_digest`: the digest, the bytes it read and the stream behind them. -/
def calculateDigest (fh : CStream) (size : Nat) : Digest × Nat × CStream :=
  let bytesLeft := if size ≠ 0 then size else maxSeamaMetaSize
  let r := digestLoop size (fh.rest.length + 2) fh bytesLeft []
  (md5 r.1, r.1.length, r.2)

/-- The loop of `copy_file`: the bytes it writes. -/
def copyFile : Nat → CStream → List UInt8 → List UInt8
  | 0, _, out => out
  | fuel + 1, ifh, out =>
    if ifh.eof = false then
      let r := ifh.fread readBuffSize
      copyFile fuel r.2 (out ++ r.1)
    else out

/-! ### Verify -/

/-- The `metasize` of `write_seama_header`, a `uint16_t`. -/
def metaSize (metas : List Meta) : Nat :=
  let metasize := metas.foldl (fun metasize m => (metasize + (m.1.length + 1)) % 2 ^ 16) 0
  (metasize + 3) / 4 * 4 % 2 ^ 16

/-- `write_seama_header` -/
def writeSeamaHeader (metas : List Meta) (size : Nat) : List UInt8 :=
  beBytes 4 seamaMagic ++ beBytes 2 0 ++ beBytes 2 (metaSize metas) ++ beBytes 4 size

/-- `write_meta_data` -/
def writeMetaData (metas : List Meta) : List UInt8 :=
  let strings := metas.flatMap fun m => m.1 ++ [0]
  strings ++ List.replicate ((strings.length + 3) / 4 * 4 - strings.length) 0

/-- The file that `pack_files` writes for an image. -/
def packFile (metas : List Meta) (image : List UInt8) : List UInt8 :=
  let d := calculateDigest md5 ⟨image, false⟩ 0
  writeSeamaHeader metas d.2.1 ++ d.1.1 ++ writeMetaData metas ++
    copyFile (image.length + 2) ⟨image, false⟩ []

/-- `seama -m .. -i image` -/
def runPack (metas : List Meta) (image : List UInt8) : List UInt8 :=
  packFile md5 (parseArgs maxMeta metas) image

/-- A buffer that `fread` was given, with what it read. -/
def overwrite (buf got : List UInt8) : List UInt8 := got ++ buf.drop got.length

/-- The loops of `extract_file` that read `n` bytes into the buffer, at most 1024 at a time: the
bytes, the stream and the buffer. -/
def readLoop : Nat → Nat → CStream → List UInt8 → List UInt8 → List UInt8 × CStream × List UInt8
  | 0, _, ifh, buf, out => (out, ifh, buf)
  | fuel + 1, n, ifh, buf, out =>
    if n > 0 then
      let r := ifh.fread (min n maxSeamaMetaSize)
      if r.1.length = 0 then (out, r.2, buf)
      else readLoop fuel (n - r.1.length) r.2 (overwrite buf r.1) (out ++ r.1)
    else (out, ifh, buf)

end HandsomeMod.Native.Seama

namespace HandsomeMod.Native.Oseama

open ForStd

/-- `SEAMA_MAGIC` -/
def seamaMagic : Nat := 0x5ea3a417

/-- `sizeof(struct seama_seal_header)` -/
def sizeofSealHdr : Nat := 12

/-- `sizeof(struct seama_entity_header)` -/
def sizeofEntityHdr : Nat := 28

/-- `fseek` and `fread`: `n` bytes, or what there is of them. -/
def readAt (seama : List UInt8) (pos n : Nat) : List UInt8 := (seama.drop pos).take n

/-- The loop that copies an entity, at most 1024 bytes at a time: the output file and what is left
of `length`. -/
def copyLoop (seama : List UInt8) : Nat → Nat → Nat → List UInt8 → List UInt8 × Nat
  | 0, _, length, out => (out, length)
  | fuel + 1, pos, length, out =>
    let buf := readAt seama pos (min 1024 length)
    if buf.length = 0 then (out, length)
    else copyLoop seama fuel (pos + buf.length) (length - buf.length) (out ++ buf)

/-- `oseama_extract_entity` from an entity on: the output file and `err`. -/
def extractEntity (seama : List UInt8) (entityIdx : Nat) : Nat → Nat → Nat → List UInt8 × Int
  | 0, _, _ => ([], 0)
  | fuel + 1, pos, i =>
    let hdr := readAt seama pos sizeofEntityHdr
    if hdr.length ≠ sizeofEntityHdr then ([], 0)
    else if beField 4 hdr 0 ≠ seamaMagic then ([], -22)
    else
      let metasize := beField 2 hdr 6
      let imagesize := beField 4 hdr 8
      -- seek past the entities that were not asked for
      if i ≠ entityIdx then
        extractEntity seama entityIdx fuel (pos + sizeofEntityHdr + (metasize + imagesize)) (i + 1)
      else
        let r := copyLoop seama (seama.length + 1) pos (sizeofEntityHdr + metasize + imagesize) []
        if r.2 ≠ 0 then (r.1, -5) else (r.1, 0)

/-- `oseama extract seama -e entityIdx` on files that can be read and written, where no seek wraps:
the output file and the result, which does not tell of the errors of `oseama_extract_entity`. With
failing writes it is `oseamaExtract`. -/
def extract (seama : List UInt8) (entityIdx : Nat) : List UInt8 × Int :=
  let hdr := readAt seama 0 sizeofSealHdr
  if hdr.length ≠ sizeofSealHdr then ([], -5)
  else
    let metasize := beField 2 hdr 6
    ((extractEntity seama entityIdx (seama.length + 1) (sizeofSealHdr + metasize) 0).1, 0)

end HandsomeMod.Native.Oseama
