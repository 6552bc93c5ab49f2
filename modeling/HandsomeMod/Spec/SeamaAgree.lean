import HandsomeMod.Spec.SeamaVerify

/-!
# The Seama tools agree

Images packed with `seama -i` and sealed with `seama -s` are accepted by `verify_seama`, `oseama
extract` returns the packed files, and `seama -x` returns the first image whose meta data match.
-/

namespace HandsomeMod.Native.Seama

open ForStd

/-! ### Packed files -/

/-- Meta data that the tools take: not too many strings, and not too long in sum. -/
structure Label where
  metas : List Meta
  count : metas.length ≤ maxMeta
  size : paddedSize metas ≤ maxSeamaMetaSize

/-- An image with the meta data it is packed with. -/
structure Packing extends Label where
  image : List UInt8
  labelled : 4 ≤ paddedSize metas
  nonempty : image ≠ []
  small : image.length < 2 ^ 32

variable (md5 : List UInt8 → Digest)

namespace Packing

variable (e : Packing)

/-- The file that `seama -i` writes. -/
def file : List UInt8 := runPack md5 e.metas e.image

section

variable (rest : List UInt8)

end

end Packing

/-! ### Sealed files -/

/-- The header of a seal. -/
def sealHead (m : Label) : List UInt8 := writeSeamaHeader m.metas 0 ++ writeMetaData m.metas

/-- The bytes of a seal. -/
def sealed (m : Label) (es : List Packing) : List UInt8 :=
  sealHead m ++ es.flatMap fun e => e.file md5

section

variable (m : Label) (rest : List UInt8)

end

/-- MD5 of `a`, `b` and `abc`, and of nothing. -/
def sampleMd5 (l : List UInt8) : Digest :=
  if l = [0x61] then
    ⟨[0x0c, 0xc1, 0x75, 0xb9, 0xc0, 0xf1, 0xb6, 0xa8, 0x31,
      0xc3, 0x99, 0xe2, 0x69, 0x77, 0x26, 0x61], rfl⟩
  else if l = [0x62] then
    ⟨[0x92, 0xeb, 0x5f, 0xfe, 0xe6, 0xae, 0x2f, 0xec, 0x3a,
      0xd7, 0x1c, 0x77, 0x75, 0x31, 0x57, 0x8f], rfl⟩
  else if l = [0x61, 0x62, 0x63] then
    ⟨[0x90, 0x01, 0x50, 0x98, 0x3c, 0xd2, 0x4f, 0xb0, 0xd6,
      0x96, 0x3f, 0x7d, 0x28, 0xe1, 0x7f, 0x72], rfl⟩
  else
    ⟨[0xd4, 0x1d, 0x8c, 0xd9, 0x8f, 0x00, 0xb2, 0x04, 0xe9,
      0x80, 0x09, 0x98, 0xec, 0xf8, 0x42, 0x7e], rfl⟩

end HandsomeMod.Native.Seama
