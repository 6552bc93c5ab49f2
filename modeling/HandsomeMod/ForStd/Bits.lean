import Mathlib

/-!
# Bytes, words and their bits

Memory is a function from addresses to bytes. The bits of an object are numbered as network
protocols do: bit 0 is the most significant bit of the first byte. Words are loaded and stored in
either byte order, and `beToCpu` is the conversion of `<asm/byteorder.h>` and of `ntohl` and its
siblings.
-/

namespace HandsomeMod.ForStd

/-- Memory as seen from the first byte of an object. -/
abbrev Mem := Nat → UInt8

/-- The byte order of a machine. -/
inductive Endian where
  | little
  | big
  deriving Repr, DecidableEq

/-- Bit `i` of an object, the most significant bit of its first byte being bit 0. -/
def bit (m : Mem) (i : Nat) : Bool := (m (i / 8)).toNat.testBit (7 - i % 8)

/-- The first `n` bytes as one big-endian number. -/
def loadBE : Nat → Mem → Nat
  | 0, _ => 0
  | n + 1, m => 2 ^ 8 * loadBE n m + (m n).toNat

/-- The first `n` bytes as one little-endian number. -/
def loadLE (n : Nat) (m : Mem) : Nat := loadBE n fun i => m (n - 1 - i)

/-- The `n` bytes of a big-endian number. -/
def storeBE (n v : Nat) : Mem := fun i => UInt8.ofNat (v >>> (8 * (n - 1 - i)))

/-- The `n` bytes of a little-endian number. -/
def storeLE (n v : Nat) : Mem := fun i => storeBE n v (n - 1 - i)

/-- A load of an `n`-byte word by the machine. -/
def Endian.load (e : Endian) (n : Nat) (m : Mem) : Nat :=
  match e with
  | .little => loadLE n m
  | .big => loadBE n m

/-- A store of an `n`-byte word by the machine. -/
def Endian.store (e : Endian) (n v : Nat) : Mem :=
  match e with
  | .little => storeLE n v
  | .big => storeBE n v

/-- `__builtin_bswap16` and its siblings, for `n` bytes. -/
def bswap (n v : Nat) : Nat := loadBE n (storeLE n v)

/-- `be64_to_cpu`, `ntohl` and so on for `n` bytes; `cpu_to_be64` and `htonl` do the same. -/
def Endian.beToCpu (e : Endian) (n v : Nat) : Nat :=
  match e with
  | .little => bswap n v
  | .big => v

/-! ### Bits of loaded and stored words -/

theorem loadBE_zero (m : Mem) : loadBE 0 m = 0 := rfl

/-- The last byte is the lowest one. -/
theorem loadBE_succ (n : Nat) (m : Mem) : loadBE (n + 1) m = 2 ^ 8 * loadBE n m + (m n).toNat := rfl

/-- What `n` bytes hold fits `n` bytes. -/
theorem loadBE_lt (n : Nat) (m : Mem) : loadBE n m < 2 ^ (8 * n) := by
  induction n with
  | zero => exact Nat.one_pos
  | succ n ih =>
    have hbyte : (m n).toNat < 2 ^ 8 := (m n).toNat_lt
    rw [loadBE_succ, Nat.mul_succ, Nat.pow_add]
    omega

/-- A load looks at its bytes only. -/
theorem loadBE_congr {n : Nat} {m m' : Mem} (h : ∀ i < n, m i = m' i) :
    loadBE n m = loadBE n m' := by
  induction n with
  | zero => rfl
  | succ n ih => rw [loadBE_succ, loadBE_succ, ih fun i hi => h i (by omega), h n (by omega)]

/-- Bit `j` of a loaded big-endian word, counted from its least significant end. -/
theorem testBit_loadBE (n : Nat) (m : Mem) (j : Nat) :
    (loadBE n m).testBit j = (decide (j < 8 * n) && bit m (8 * n - 1 - j)) := by
  induction n generalizing j with
  | zero => simp [loadBE_zero]
  | succ n ih =>
    rw [loadBE_succ, Nat.testBit_two_pow_mul_add _ (m n).toNat_lt]
    by_cases hj : j < 8
    · have hdiv : (8 * (n + 1) - 1 - j) / 8 = n := by omega
      have hmod : 7 - (8 * (n + 1) - 1 - j) % 8 = j := by omega
      rw [if_pos hj, bit, hdiv, hmod, decide_eq_true (by omega), Bool.true_and]
    · rw [if_neg hj, ih, show 8 * n - 1 - (j - 8) = 8 * (n + 1) - 1 - j by omega]
      congr 1
      exact decide_eq_decide.mpr (by omega)

/-- Bit `i` of a big-endian word in memory. -/
theorem bit_storeBE {n i : Nat} (v : Nat) (hi : i < 8 * n) :
    bit (storeBE n v) i = v.testBit (8 * n - 1 - i) := by
  rw [bit, storeBE, UInt8.toNat_ofNat', Nat.testBit_mod_two_pow, Nat.testBit_shiftRight,
    decide_eq_true (by omega), Bool.true_and]
  congr 1
  omega

/-- A stored big-endian word is loaded back. -/
theorem loadBE_storeBE {n v : Nat} (hv : v < 2 ^ (8 * n)) : loadBE n (storeBE n v) = v := by
  apply Nat.eq_of_testBit_eq
  intro j
  rw [testBit_loadBE]
  by_cases hj : j < 8 * n
  · rw [decide_eq_true hj, Bool.true_and, bit_storeBE v (by omega)]
    congr 1
    omega
  · rw [decide_eq_false hj, Bool.false_and]
    exact (Nat.testBit_lt_two_pow
      (Nat.lt_of_lt_of_le hv (Nat.pow_le_pow_right Nat.two_pos (by omega)))).symm

/-! ### Byte order -/

/-- Bytes with the same bits are the same. -/
theorem byte_ext {m m' : Mem} {k : Nat} (h : ∀ j < 8, bit m (8 * k + j) = bit m' (8 * k + j)) :
    m k = m' k := by
  apply UInt8.toNat_inj.mp
  apply Nat.eq_of_testBit_eq
  intro j
  by_cases hj : j < 8
  · have hbit := h (7 - j) (by omega)
    simp only [bit] at hbit
    rwa [show (8 * k + (7 - j)) / 8 = k by omega,
      show 7 - (8 * k + (7 - j)) % 8 = j by omega] at hbit
  · have hle : 2 ^ 8 ≤ 2 ^ j := Nat.pow_le_pow_right Nat.two_pos (by omega)
    rw [Nat.testBit_lt_two_pow (Nat.lt_of_lt_of_le (m k).toNat_lt hle),
      Nat.testBit_lt_two_pow (Nat.lt_of_lt_of_le (m' k).toNat_lt hle)]

/-- The bytes of a loaded word are those it was loaded from. -/
theorem storeBE_loadBE {n i : Nat} (m : Mem) (hi : i < n) : storeBE n (loadBE n m) i = m i := by
  apply byte_ext
  intro j hj
  rw [bit_storeBE _ (by omega), testBit_loadBE, decide_eq_true (by omega), Bool.true_and]
  congr 1
  omega

/-- A stored little-endian word is loaded back. -/
theorem loadLE_storeLE {n v : Nat} (hv : v < 2 ^ (8 * n)) : loadLE n (storeLE n v) = v := by
  rw [← loadBE_storeBE hv, loadLE]
  apply loadBE_congr
  intro i hi
  rw [storeLE, loadBE_storeBE hv]
  congr 1
  omega

/-- Swapping what was loaded in the one order gives what the other order loads. -/
theorem bswap_loadLE (n : Nat) (m : Mem) : bswap n (loadLE n m) = loadBE n m := by
  apply loadBE_congr
  intro i hi
  rw [storeLE, loadLE, storeBE_loadBE _ (by omega)]
  congr 1
  omega

/-- Loading a word and converting it from big endian reads it big-endian. -/
theorem beToCpu_load (e : Endian) (n : Nat) (m : Mem) :
    e.beToCpu n (e.load n m) = loadBE n m := by
  cases e with
  | little => exact bswap_loadLE n m
  | big => rfl

/-- Converting a word to big endian and storing it stores it big-endian. -/
theorem store_beToCpu (e : Endian) {n i : Nat} (v : Nat) (hi : i < n) :
    e.store n (e.beToCpu n v) i = storeBE n v i := by
  cases e with
  | little =>
    have h := storeBE_loadBE (storeLE n v) (show n - 1 - i < n by omega)
    rw [Endian.store, Endian.beToCpu, storeLE, bswap, h, storeLE]
    congr 1
    omega
  | big => rfl

/-! ### Words in the order of the machine -/

/-- What was stored is loaded again if it fits. -/
theorem Endian.load_store (e : Endian) {n v : Nat} (hv : v < 2 ^ (8 * n)) :
    e.load n (e.store n v) = v := by
  cases e with
  | little => exact loadLE_storeLE hv
  | big => exact loadBE_storeBE hv

/-- Storing what was loaded leaves the bytes. -/
theorem Endian.store_load (e : Endian) {n i : Nat} (m : Mem) (hi : i < n) :
    e.store n (e.load n m) i = m i := by
  cases e with
  | little =>
    change storeBE n (loadBE n fun i => m (n - 1 - i)) (n - 1 - i) = m i
    rw [storeBE_loadBE _ (by omega), show n - 1 - (n - 1 - i) = i by omega]
  | big => exact storeBE_loadBE m hi

/-- A load looks at its bytes only, in both orders. -/
theorem Endian.load_congr (e : Endian) {n : Nat} {m m' : Mem} (h : ∀ i < n, m i = m' i) :
    e.load n m = e.load n m' := by
  cases e with
  | little => exact loadBE_congr fun i hi => h (n - 1 - i) (by omega)
  | big => exact loadBE_congr h

/-- What `n` bytes hold fits `n` bytes, in both orders. -/
theorem Endian.load_lt (e : Endian) (n : Nat) (m : Mem) : e.load n m < 2 ^ (8 * n) := by
  cases e with
  | little => exact loadBE_lt n _
  | big => exact loadBE_lt n m

end HandsomeMod.ForStd
