import Mathlib

/-!
# Blocks of cells

A block of memory is the list of its cells. `none` is an access outside of the block; so is a
negative length, which C takes for a very long one.
-/

namespace HandsomeMod.ForStd

universe u

variable {α : Type u}

/-- Copy `n` cells from `src` to `dst`, as if through a buffer. -/
def memmove (b : List α) (dst src : Nat) (n : Int) : Option (List α) :=
  if 0 ≤ n ∧ dst + n.toNat ≤ b.length ∧ src + n.toNat ≤ b.length then
    some (b.take dst ++ (b.drop src).take n.toNat ++ b.drop (dst + n.toNat))
  else none

/-- Set `n` cells from `pos` on. -/
def memset (b : List α) (pos : Nat) (n : Int) (a : α) : Option (List α) :=
  if 0 ≤ n ∧ pos + n.toNat ≤ b.length then
    some (b.take pos ++ List.replicate n.toNat a ++ b.drop (pos + n.toNat))
  else none

/-- Copy cells from elsewhere to `pos`. -/
def memcpy (b : List α) (pos : Nat) (l : List α) : Option (List α) :=
  if pos + l.length ≤ b.length then some (b.take pos ++ l ++ b.drop (pos + l.length)) else none

/-- Write cells one by one from `pos` on. -/
def writeCells (b : List α) (pos : Nat) : List α → Option (List α)
  | [] => some b
  | a :: l => if pos < b.length then writeCells (b.set pos a) (pos + 1) l else none

variable {b b' l : List α} {dst src pos n : Nat}

/-- A negative length is outside of any buffer. -/
theorem memset_of_neg {n : Int} (hn : n < 0) (b : List α) (pos : Nat) (a : α) :
    memset b pos n a = none := by
  rw [memset, if_neg fun h => absurd h.1 (Int.not_le.mpr hn)]

/-- A negative length is outside of any buffer. -/
theorem memmove_of_neg {n : Int} (hn : n < 0) (b : List α) (dst src : Nat) :
    memmove b dst src n = none := by
  rw [memmove, if_neg fun h => absurd h.1 (Int.not_le.mpr hn)]

/-- `memset` copies as many equal cells. -/
theorem memset_eq_memcpy (b : List α) (pos n : Nat) (a : α) :
    memset b pos n a = memcpy b pos (List.replicate n a) := by
  rw [memset, memcpy, Int.toNat_natCast, List.length_replicate]
  refine if_congr ⟨fun h => h.2, fun h => ⟨Int.natCast_nonneg n, h⟩⟩ rfl rfl

/-- A copy inside of the buffer replaces its cells and keeps those around them. -/
theorem memcpy_of_le (h : pos + l.length ≤ b.length) :
    memcpy b pos l = some (b.take pos ++ l ++ b.drop (pos + l.length)) := if_pos h

/-- A copy goes wrong exactly if it ends behind the buffer. -/
theorem memcpy_eq_none_iff : memcpy b pos l = none ↔ b.length < pos + l.length := by
  rw [memcpy]
  split
  · simp only [reduceCtorEq, false_iff]
    omega
  · simp only [true_iff]
    omega

/-- What stands in front of the end of a copy. -/
theorem memcpy_take (h : memcpy b pos l = some b') :
    b'.take (pos + l.length) = b.take pos ++ l := by
  rw [memcpy] at h
  split at h
  · cases h
    have hlen : (b.take pos ++ l).length = pos + l.length := by
      rw [List.length_append, List.length_take]
      omega
    rw [← hlen, List.take_left]
  · cases h

/-- A copy keeps the length of the buffer. -/
theorem memcpy_length (h : memcpy b pos l = some b') : b'.length = b.length := by
  rw [memcpy] at h
  split at h
  · cases h
    simp only [List.length_append, List.length_take, List.length_drop]
    omega
  · cases h

/-- The last cells of a block move to its end. -/
theorem memmove_up (hle : src ≤ dst) (hdst : dst ≤ b.length) :
    memmove b dst src ((b.length : Int) - dst) =
      some (b.take dst ++ (b.drop src).take (b.length - dst)) := by
  have hn : ((b.length : Int) - dst).toNat = b.length - dst := by omega
  rw [memmove, hn, if_pos ⟨by omega, by omega, by omega⟩,
    List.drop_eq_nil_of_le (by omega : b.length ≤ dst + (b.length - dst)), List.append_nil]

/-- Writing cell by cell inside of the buffer is a copy. -/
theorem writeCells_eq (h : pos + l.length ≤ b.length) :
    writeCells b pos l = some (b.take pos ++ l ++ b.drop (pos + l.length)) := by
  induction l generalizing b pos with
  | nil => simp [writeCells]
  | cons a l ih =>
    rw [List.length_cons] at h
    rw [writeCells, if_pos (by omega), ih (by rw [List.length_set]; omega)]
    -- the first cell joins the untouched part, the others are written behind it
    have htake : (b.set pos a).take (pos + 1) = b.take pos ++ [a] := by
      rw [List.set_eq_take_cons_drop a (by omega), List.take_append]
      simp [Nat.min_eq_left (by omega : pos ≤ b.length)]
    have hdrop : (b.set pos a).drop (pos + 1 + l.length) = b.drop (pos + (l.length + 1)) := by
      rw [List.drop_set_of_lt (by omega)]
      congr 1
      omega
    rw [htake, hdrop]
    simp

/-- Cells that were all written are inside of the buffer. -/
theorem writeCells_length (h : writeCells b pos l = some b') (hl : l ≠ []) :
    pos + l.length ≤ b.length := by
  induction l generalizing b pos with
  | nil => exact absurd rfl hl
  | cons a l ih =>
    rw [writeCells] at h
    split at h
    · rename_i hlt
      rw [List.length_cons]
      -- only the last write bounds the length, so a further cell is left to the induction
      cases l with
      | nil => exact hlt
      | cons a' l =>
        have hle := ih h (List.cons_ne_nil _ _)
        rw [List.length_set] at hle
        omega
    · cases h

end HandsomeMod.ForStd
