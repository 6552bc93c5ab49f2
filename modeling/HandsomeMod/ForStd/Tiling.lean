import Mathlib

/-!
# Ranges one after the other

A list of half-open ranges tiles the numbers from one bound to another if each range begins where
the one before it ends.
-/

namespace HandsomeMod.ForStd

universe u

variable {α : Type u} {lo size : α → Nat} {pos stop x : Nat} {a : α} {l l' : List α}

/-- The ranges of a list tile the numbers from `pos` to `stop`. -/
def Tiles (lo size : α → Nat) : Nat → List α → Nat → Prop
  | pos, [], stop => pos = stop
  | pos, a :: l, stop => lo a = pos ∧ Tiles lo size (pos + size a) l stop

/-- Two tilings that meet make one. -/
theorem tiles_append :
    Tiles lo size pos (l ++ l') stop ↔ ∃ mid, Tiles lo size pos l mid ∧ Tiles lo size mid l' stop := by
  induction l generalizing pos with
  | nil => exact ⟨fun h => ⟨pos, rfl, h⟩, fun ⟨_, rfl, h⟩ => h⟩
  | cons a l ih =>
    simp only [List.cons_append, Tiles, ih]
    constructor
    · rintro ⟨hlo, mid, hl, hl'⟩
      exact ⟨mid, ⟨hlo, hl⟩, hl'⟩
    · rintro ⟨mid, ⟨hlo, hl⟩, hl'⟩
      exact ⟨hlo, mid, hl, hl'⟩

/-- A single tile covers what it is for. -/
theorem tiles_singleton : Tiles lo size pos [a] stop ↔ lo a = pos ∧ pos + size a = stop := Iff.rfl

/-- A tiling ends behind all its ranges. -/
theorem Tiles.stop_eq (h : Tiles lo size pos l stop) : stop = pos + (l.map size).sum := by
  induction l generalizing pos with
  | nil => exact h.symm
  | cons a l ih => rw [ih h.2, List.map_cons, List.sum_cons, Nat.add_assoc]

/-- What the ranges of a tiling contain. -/
theorem Tiles.contains_iff (h : Tiles lo size pos l stop) :
    (∃ a ∈ l, lo a ≤ x ∧ x < lo a + size a) ↔ pos ≤ x ∧ x < stop := by
  induction l generalizing pos with
  | nil =>
    obtain rfl : pos = stop := h
    simp only [List.not_mem_nil, false_and, exists_false, false_iff]
    omega
  | cons a l ih =>
    have hstop := h.2.stop_eq
    simp only [List.mem_cons, exists_eq_or_imp, ih h.2, h.1]
    omega

/-- A tile is inside of the range. -/
theorem Tiles.le_of_mem (h : Tiles lo size pos l stop) (ha : a ∈ l) :
    pos ≤ lo a ∧ lo a + size a ≤ stop := by
  induction l generalizing pos with
  | nil => cases ha
  | cons b l ih =>
    have hstop := h.2.stop_eq
    have hlo := h.1
    obtain rfl | ha := List.mem_cons.mp ha
    · omega
    · have hle := ih h.2 ha
      omega

/-- The ranges of a tiling are apart from each other. -/
theorem Tiles.pairwise (h : Tiles lo size pos l stop) :
    l.Pairwise fun a b => lo a + size a ≤ lo b := by
  induction l generalizing pos with
  | nil => exact .nil
  | cons a l ih => exact .cons (fun b hb => h.1 ▸ (h.2.le_of_mem hb).1) (ih h.2)

end HandsomeMod.ForStd
