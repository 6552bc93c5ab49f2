import HandsomeMod.Native.Seama

/-!
# Entities of Seama files

What the loops of the Seama tools read and write, the fields of a header that was written, and the
strings that `match_meta` finds in meta data.
-/

namespace HandsomeMod.Native.Seama

open ForStd

/-! ### Reading in blocks -/

section

variable (metas : List Meta) {size : Nat}

end

/-! ### Meta data -/

/-- The strings of meta data, each with its terminator. -/
def strings (metas : List Meta) : List UInt8 := metas.flatMap fun m => m.1 ++ [0]

/-- The size of the meta data, padded to four. -/
def paddedSize (metas : List Meta) : Nat := ((strings metas).length + 3) / 4 * 4

end HandsomeMod.Native.Seama
