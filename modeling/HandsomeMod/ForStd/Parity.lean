import Mathlib

/-!
# Parities of sets

The parity of a set of positions, for those with some property, is a check bit. Parities add up by
exclusive or, and two sets differ in a parity as their symmetric difference is odd. A code that keeps
a parity for a property and one for its negation so tells one difference from two.
-/

namespace HandsomeMod.ForStd

variable {ι κ : Type*}

/-- Whether an odd number of members has the property. -/
def parity (s : Finset ι) (p : ι → Bool) : Bool := decide (Odd (s.filter (p · = true)).card)

/-- A sum is odd if exactly one part is. -/
theorem decide_odd_add (a b : Nat) : decide (Odd (a + b)) = (decide (Odd a) ^^ decide (Odd b)) := by
  have hiff := Nat.odd_add' (m := a) (n := b)
  rw [← Nat.not_odd_iff_even] at hiff
  by_cases ha : Odd a <;> by_cases hb : Odd b <;> simp [hiff, ha, hb]

theorem parity_empty (p : ι → Bool) : parity ∅ p = false := by
  simp [parity]

/-- A condition that nothing meets has parity zero. -/
theorem parity_false (s : Finset ι) : parity s (fun _ => false) = false := by
  simp [parity]

/-- The parity of one element is whether it meets the condition. -/
theorem parity_singleton (x : ι) (p : ι → Bool) : parity {x} p = p x := by
  rw [parity, Finset.filter_singleton]
  cases p x <;> simp

/-- A set of pairs is counted through one component. -/
theorem parity_map (f : κ ↪ ι) (s : Finset κ) (p : ι → Bool) :
    parity (s.map f) p = parity s fun x => p (f x) := by
  rw [parity, Finset.filter_map, Finset.card_map]
  rfl

variable [DecidableEq ι]

/-- The parities of disjoint sets are added. -/
theorem parity_union {s t : Finset ι} (h : Disjoint s t) (p : ι → Bool) :
    parity (s ∪ t) p = (parity s p ^^ parity t p) := by
  rw [parity, Finset.filter_union, Finset.card_union_of_disjoint (Finset.disjoint_filter_filter h),
    decide_odd_add]
  rfl

/-- The parity of some members of a list, one after the other. -/
theorem parity_filter_toFinset {l : List ι} (hl : l.Nodup) (q p : ι → Bool) :
    parity (l.toFinset.filter (q · = true)) p = l.foldr (fun x acc => q x && p x ^^ acc) false := by
  induction l with
  | nil => exact parity_empty p
  | cons x l ih =>
    obtain ⟨hx, hl⟩ := List.nodup_cons.mp hl
    rw [List.toFinset_cons, Finset.filter_insert, List.foldr_cons, ← ih hl]
    cases hq : q x with
    | false => rw [if_neg Bool.false_ne_true, Bool.false_and, Bool.false_xor]
    | true =>
      have hnot : x ∉ l.toFinset.filter (q · = true) := fun h =>
        hx (List.mem_toFinset.mp (Finset.mem_of_mem_filter x h))
      rw [if_pos rfl, Finset.insert_eq, parity_union (Finset.disjoint_singleton_left.mpr hnot),
        parity_singleton, Bool.true_and]

/-- The parity of two elements. -/
theorem parity_pair {x y : ι} (h : x ≠ y) (p : ι → Bool) : parity {x, y} p = (p x ^^ p y) := by
  rw [Finset.insert_eq, parity_union (Finset.disjoint_singleton.mpr h), parity_singleton,
    parity_singleton]

/-- Where two sets differ, their parities do. -/
theorem parity_symmDiff (s t : Finset ι) (p : ι → Bool) :
    parity (symmDiff s t) p = (parity s p ^^ parity t p) := by
  have hs := parity_union (Finset.disjoint_sdiff_inter s t) p
  have ht := parity_union (Finset.disjoint_sdiff_inter t s) p
  rw [Finset.sdiff_union_inter] at hs ht
  have hdiff : parity (symmDiff s t) p = (parity (s \ t) p ^^ parity (t \ s) p) :=
    parity_union disjoint_sdiff_sdiff p
  rw [hdiff, hs, ht, Finset.inter_comm t s]
  generalize parity (s ∩ t) p = both
  cases both <;> simp

end HandsomeMod.ForStd
