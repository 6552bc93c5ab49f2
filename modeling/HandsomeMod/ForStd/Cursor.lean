import Mathlib

/-!
# Placing items behind a cursor

Items are placed one after the other. Each one gets a start that is at least `gap` behind the
cursor, and moves the cursor behind itself.
-/

namespace HandsomeMod.ForStd

universe u

/-- Where an item goes when the cursor is at `s`, and where the cursor is then. -/
structure Placer (α : Type u) where
  gap : Nat
  start : Nat → α → Nat
  next : Nat → α → Nat
  gap_le_start : ∀ s a, s + gap ≤ start s a
  start_le_next : ∀ s a, start s a ≤ next s a

namespace Placer

variable {α : Type u} (P : Placer α)

/-- An item with its start and the position behind it. -/
structure Placed (α : Type u) where
  item : α
  start : Nat
  next : Nat

/-- The items in their places. -/
def run : Nat → List α → List (Placed α)
  | _, [] => []
  | s, a :: l => ⟨a, P.start s a, P.next s a⟩ :: run (P.next s a) l

/-- The cursor behind all items. -/
def stop : Nat → List α → Nat
  | s, [] => s
  | s, a :: l => stop (P.next s a) l

/-- An item moves the cursor by the gap at least. -/
theorem le_next (s : Nat) (a : α) : s + P.gap ≤ P.next s a :=
  Nat.le_trans (P.gap_le_start s a) (P.start_le_next s a)

/-- The cursor does not go back. -/
theorem le_stop (s : Nat) (l : List α) : s ≤ P.stop s l := by
  induction l generalizing s with
  | nil => exact Nat.le_refl s
  | cons a l ih =>
    have hnext := P.le_next s a
    have hrest := ih (P.next s a)
    rw [stop]
    omega

/-- All items start behind the first cursor and end before the last one. -/
theorem run_bounds {s : Nat} {l : List α} {x : Placed α} (hx : x ∈ P.run s l) :
    s + P.gap ≤ x.start ∧ x.next ≤ P.stop s l := by
  induction l generalizing s with
  | nil => cases hx
  | cons a l ih =>
    rw [run, List.mem_cons] at hx
    rcases hx with rfl | hx
    · exact ⟨P.gap_le_start s a, P.le_stop (P.next s a) l⟩
    · have hnext := P.le_next s a
      obtain ⟨hstart, hstop⟩ := ih hx
      exact ⟨by omega, hstop⟩

/-- Items are placed in order, `gap` apart. -/
theorem run_pairwise (s : Nat) (l : List α) :
    (P.run s l).Pairwise fun x y => x.next + P.gap ≤ y.start := by
  induction l generalizing s with
  | nil => exact List.Pairwise.nil
  | cons a l ih =>
    exact List.Pairwise.cons (fun _ hy => (P.run_bounds hy).1) (ih (P.next s a))

/-- The last item ends at the last cursor. -/
theorem exists_next_eq_stop (s : Nat) (a : α) (l : List α) :
    ∃ x ∈ P.run s (a :: l), x.next = P.stop s (a :: l) := by
  induction l generalizing s a with
  | nil => exact ⟨_, List.mem_cons_self, rfl⟩
  | cons b l ih =>
    obtain ⟨x, hx, hnext⟩ := ih (P.next s a) b
    exact ⟨x, List.mem_cons_of_mem _ hx, hnext⟩

/-- Different items do not overlap. -/
theorem run_disjoint {s : Nat} {l : List α} {x y : Placed α} (hx : x ∈ P.run s l)
    (hy : y ∈ P.run s l) (hne : x.item ≠ y.item) : x.next ≤ y.start ∨ y.next ≤ x.start := by
  have hsymm : Std.Symm fun x y : Placed α => x.next ≤ y.start ∨ y.next ≤ x.start :=
    ⟨fun _ _ h => h.symm⟩
  have hpair := (P.run_pairwise s l).imp fun {x y : Placed α} h =>
    (Or.inl (by omega) : x.next ≤ y.start ∨ y.next ≤ x.start)
  exact hpair.forall hx hy fun h => hne (congrArg Placed.item h)

/-- Each item is placed once and in order. -/
theorem map_item_run (s : Nat) (l : List α) : (P.run s l).map Placed.item = l := by
  induction l generalizing s with
  | nil => rfl
  | cons a l ih => rw [run, List.map_cons, ih]

/-- An item is placed by `start` and `next` from some cursor. -/
theorem exists_cursor {s : Nat} {l : List α} {x : Placed α} (hx : x ∈ P.run s l) :
    ∃ c, x.start = P.start c x.item ∧ x.next = P.next c x.item := by
  induction l generalizing s with
  | nil => cases hx
  | cons a l ih =>
    rw [run, List.mem_cons] at hx
    rcases hx with rfl | hx
    · exact ⟨s, rfl, rfl⟩
    · exact ih hx

end Placer

end HandsomeMod.ForStd
