import HandsomeMod.ForStd.Mem

/-!
# Streams of C

A `FILE` that is read from the front, with its end-of-file indicator, and big-endian fields of what
was read.
-/

namespace HandsomeMod.ForStd

/-- What is left of a file, and `feof`. -/
structure CStream where
  rest : List UInt8
  eof : Bool
  deriving DecidableEq, Repr

namespace CStream

/-- `fread` of `n` bytes: a short read sets the indicator. -/
def fread (f : CStream) (n : Nat) : List UInt8 × CStream :=
  (f.rest.take n, ⟨f.rest.drop n, f.eof || decide (f.rest.length < n)⟩)

end CStream

/-! ### Big-endian fields -/

/-- The bytes of an `n`-byte big-endian number. -/
def beBytes (n v : Nat) : List UInt8 := (List.range n).map (storeBE n v)

/-- The big-endian number of `n` bytes at a position. -/
def beField (n : Nat) (buf : List UInt8) (pos : Nat) : Nat :=
  loadBE n fun k => buf.getD (pos + k) 0

/-- A field of `n` bytes holds what fits `n` bytes. -/
theorem beField_lt (n : Nat) (buf : List UInt8) (pos : Nat) : beField n buf pos < 2 ^ (8 * n) :=
  loadBE_lt n _

/-- A field depends on its bytes only. -/
theorem beField_congr {n : Nat} (pos : Nat) {buf buf' : List UInt8}
    (h : ∀ i < n, buf'[pos + i]? = buf[pos + i]?) : beField n buf' pos = beField n buf pos := by
  rw [beField, beField]
  apply loadBE_congr
  intro i hi
  rw [List.getD_eq_getElem?_getD, List.getD_eq_getElem?_getD, h i hi]

end HandsomeMod.ForStd
