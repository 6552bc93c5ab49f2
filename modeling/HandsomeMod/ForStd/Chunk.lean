import Mathlib

/-!
# Cutting a list into padded chunks

A list written to a medium that only takes whole blocks is cut into chunks of `n` elements; the
last chunk is filled up with a pad element. `chunk n a l i` is the `i`-th chunk, `numChunks n l`
is their number and `padded n a l` is their concatenation.
-/

namespace HandsomeMod.ForStd

variable {α : Type*}

/-- The `i`-th run of `n` elements of `l`, filled up with `a` where `l` ends. -/
def chunk (n : Nat) (a : α) (l : List α) (i : Nat) : List α :=
  (l.drop (i * n)).take n ++ List.replicate (n - ((l.drop (i * n)).take n).length) a

/-- How many chunks of `n` elements `l` needs. -/
def numChunks (n : Nat) (l : List α) : Nat :=
  (l.length + (n - 1)) / n

/-- `l` filled up with `a` to a multiple of `n` elements. -/
def padded (n : Nat) (a : α) (l : List α) : List α :=
  l ++ List.replicate (numChunks n l * n - l.length) a

@[simp] theorem length_chunk (n : Nat) (a : α) (l : List α) (i : Nat) :
    (chunk n a l i).length = n := by
  simp only [chunk, List.length_append, List.length_replicate, List.length_take]
  omega

/-- A chunk that lies inside the list is a plain slice. -/
theorem chunk_eq_take (n : Nat) (a : α) (l : List α) (i : Nat) (h : i * n + n ≤ l.length) :
    chunk n a l i = (l.drop (i * n)).take n := by
  have hlen : ((l.drop (i * n)).take n).length = n := by
    rw [List.length_take, List.length_drop]; omega
  rw [chunk, hlen, Nat.sub_self, List.replicate_zero, List.append_nil]

/-- The chunk that runs over the end of the list is its tail and the padding. -/
theorem chunk_eq_append (n : Nat) (a : α) (l : List α) (i : Nat) (h : l.length ≤ i * n + n) :
    chunk n a l i = l.drop (i * n) ++ List.replicate (n - (l.drop (i * n)).length) a := by
  have hle : (l.drop (i * n)).length ≤ n := by rw [List.length_drop]; omega
  rw [chunk, List.take_of_length_le hle]

/-- The chunks that have something of the list. -/
theorem lt_numChunks_iff (n : Nat) (hn : 0 < n) (l : List α) (i : Nat) :
    i < numChunks n l ↔ i * n < l.length := by
  rw [numChunks, Nat.lt_div_iff_mul_lt hn]
  omega

/-- The chunks behind the list. -/
theorem numChunks_le_iff (n : Nat) (hn : 0 < n) (l : List α) (i : Nat) :
    numChunks n l ≤ i ↔ l.length ≤ i * n := by
  have := lt_numChunks_iff n hn l i
  omega

/-- The chunks before the `i`-th one are the first `i * n` elements. -/
theorem flatMap_chunk_range (n : Nat) (a : α) (l : List α) (i : Nat) (h : i * n ≤ l.length) :
    (List.range i).flatMap (chunk n a l) = l.take (i * n) := by
  induction i with
  | zero => simp
  | succ i ih =>
    have hi : i * n + n ≤ l.length := by rw [Nat.succ_mul] at h; exact h
    rw [List.range_succ, List.flatMap_append, ih (by omega), List.flatMap_singleton,
      chunk_eq_take n a l i hi, Nat.succ_mul, List.take_add]

/-- All chunks together are the padded list. -/
theorem flatMap_chunk_numChunks (n : Nat) (hn : 0 < n) (a : α) (l : List α) :
    (List.range (numChunks n l)).flatMap (chunk n a l) = padded n a l := by
  -- all chunks but the last one are full, the last one is padded
  cases hk : numChunks n l with
  | zero =>
    have hl : l = [] := by
      have := (numChunks_le_iff n hn l 0).mp (by omega)
      exact List.length_eq_zero_iff.mp (by omega)
    rw [padded, hk, hl]
    simp
  | succ k =>
    have hlt : k * n < l.length := (lt_numChunks_iff n hn l k).mp (by omega)
    have hle : l.length ≤ (k + 1) * n := (numChunks_le_iff n hn l _).mp (by omega)
    rw [Nat.succ_mul] at hle
    rw [List.range_succ, List.flatMap_append, flatMap_chunk_range n a l k (by omega),
      List.flatMap_singleton, chunk_eq_append n a l k hle, ← List.append_assoc,
      List.take_append_drop, padded, hk]
    congr 2
    rw [List.length_drop, Nat.succ_mul]
    omega

end HandsomeMod.ForStd
