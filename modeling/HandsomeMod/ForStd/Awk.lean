import HandsomeMod.ForStd.CDecimal

/-!
# Functions of awk

The built-in functions of the awk of busybox on strings and on whole numbers. The operands of the
bitwise functions are converted to an `unsigned long` of `w` bits.
-/

namespace HandsomeMod.ForStd.Awk

/-- The operand of a bitwise function. -/
def ulong (w : Nat) (v : Int) : Nat := (v % 2 ^ w).toNat

def and (w : Nat) (a b : Int) : Int := ↑(ulong w a &&& ulong w b)

def or (w : Nat) (a b : Int) : Int := ↑(ulong w a ||| ulong w b)

def xor (w : Nat) (a b : Int) : Int := ↑(ulong w a ^^^ ulong w b)

def lshift (w : Nat) (a b : Int) : Int := ↑(ulong w a <<< ulong w b % 2 ^ w)

def rshift (w : Nat) (a b : Int) : Int := ↑(ulong w a >>> ulong w b)

/-- The number of a string that starts with digits, 0 for the empty string. -/
def num (s : List UInt8) : Int := ↑(decimal (s.takeWhile isDigit))

/-- `index(s, c)`, which counts from 1. -/
def index (s : List UInt8) (c : UInt8) : Nat :=
  match memchr s c s.length with
  | some i => i + 1
  | none => 0

/-- `substr(s, i, n)`, or without `n`. A start in front of the string is its first character. -/
def substr (s : List UInt8) (i : Int) (n : Option Int) : List UInt8 :=
  let s := s.drop (i - 1).toNat
  match n with
  | some n => s.take n.toNat
  | none => s

/-- The fields that `split` makes with a separator of one character. -/
def split (s : List UInt8) (c : UInt8) : List (List UInt8) := if s = [] then [] else s.splitOn c

section Bitwise

variable {w a b : Nat}

/-- A number that fits is taken as it is. -/
theorem ulong_natCast (h : a < 2 ^ w) : ulong w a = a := by
  rw [ulong, show (2 : Int) ^ w = ((2 ^ w : Nat) : Int) from (Nat.cast_pow 2 w).symm,
    ← Int.natCast_mod, Nat.mod_eq_of_lt h, Int.toNat_natCast]

/-- `and` of numbers that fit. -/
theorem and_natCast (ha : a < 2 ^ w) (hb : b < 2 ^ w) : and w a b = ↑(a &&& b) := by
  rw [and, ulong_natCast ha, ulong_natCast hb]

/-- `or` of numbers that fit. -/
theorem or_natCast (ha : a < 2 ^ w) (hb : b < 2 ^ w) : or w a b = ↑(a ||| b) := by
  rw [or, ulong_natCast ha, ulong_natCast hb]

/-- `xor` of numbers that fit. -/
theorem xor_natCast (ha : a < 2 ^ w) (hb : b < 2 ^ w) : xor w a b = ↑(a ^^^ b) := by
  rw [xor, ulong_natCast ha, ulong_natCast hb]

/-- `rshift` of numbers that fit. -/
theorem rshift_natCast (ha : a < 2 ^ w) (hb : b < 2 ^ w) : rshift w a b = ↑(a >>> b) := by
  rw [rshift, ulong_natCast ha, ulong_natCast hb]

/-- `lshift` of numbers that fit, where no bit is shifted out. -/
theorem lshift_natCast (ha : a <<< b < 2 ^ w) (hb : b < 2 ^ w) : lshift w a b = ↑(a <<< b) := by
  have hle : a < 2 ^ w := by
    rw [Nat.shiftLeft_eq] at ha
    exact Nat.lt_of_le_of_lt (Nat.le_mul_of_pos_right a (Nat.two_pow_pos b)) ha
  rw [lshift, ulong_natCast hle, ulong_natCast hb, Nat.mod_eq_of_lt ha]

end Bitwise

section Strings

variable {s : List UInt8} {c : UInt8}

/-- A printed number is read again. -/
theorem num_decText (n : Nat) : num (decText n) = n := by
  obtain ⟨-, hdigits, hvalue⟩ := decText_spec n
  rw [num, List.takeWhile_eq_self_iff.mpr hdigits, hvalue]

/-- `index` is zero where the character does not occur. -/
theorem index_of_notMem (h : c ∉ s) : index s c = 0 := by
  have hnone := @memchr_eq_none s c [] fun b hb => ne_of_mem_of_not_mem hb h
  rw [List.append_nil] at hnone
  rw [index, hnone]

/-- `index` counts from one to the first place of the character. -/
theorem index_append (h : c ∉ s) (t : List UInt8) : index (s ++ c :: t) c = s.length + 1 := by
  have hlen : s.length < (s ++ c :: t).length := by
    rw [List.length_append, List.length_cons]
    omega
  rw [index, memchr_append t (fun b hb => ne_of_mem_of_not_mem hb h) hlen]

/-- `split` of a text that is not empty. -/
theorem split_of_ne_nil (h : s ≠ []) (c : UInt8) : split s c = s.splitOn c := if_neg h

end Strings

end HandsomeMod.ForStd.Awk
