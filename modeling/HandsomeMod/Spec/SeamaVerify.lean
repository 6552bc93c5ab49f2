import HandsomeMod.Spec.SeamaFormat

/-!
# What `verify_seama` accepts

The entities of a file, one behind the other, and when all of them are right. `verify_seama` returns
0 as soon as one entity passes its check, so the files it accepts are those whose first entity with
an image does.
-/

namespace HandsomeMod.Native.Seama

open ForStd

/-! ### The entity at the front of a file -/

section

variable (l : List UInt8)

def header : List UInt8 := l.take sizeofHdr

/-- The image size of the header. -/
def isize : Nat := beField 4 (header l) 8

/-- The size of the meta data of the header. -/
def msize : Nat := beField 2 (header l) 6

/-- The checksum, of an entity with an image. -/
def checksum : List UInt8 := (l.drop sizeofHdr).take 16

/-- Where the image starts. -/
def imageOffset : Nat := sizeofHdr + (if 0 < isize l then 16 else 0) + msize l

/-- The image, or what the file has of it. -/
def imageOf : List UInt8 := (l.drop (imageOffset l)).take (isize l)

end

variable (md5 : List UInt8 → Digest)

end HandsomeMod.Native.Seama
