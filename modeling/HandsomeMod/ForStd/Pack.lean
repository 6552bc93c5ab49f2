import Mathlib

/-!
# Packing items into a bounded area

Items are taken from a list while they fit; the first one that does not ends the list. Several
lists are packed one after the other into the same area. The size of an item is `w`.
-/

namespace HandsomeMod.ForStd.Pack

universe u

variable {α : Type u} (w : α → Nat) (cap : Nat)

/-- The size of all items. -/
def total (l : List α) : Nat := (l.map w).sum

/-- The items of a list that are packed behind `used`. -/
def fit : Nat → List α → List α
  | _, [] => []
  | used, a :: l => if used + w a > cap then [] else a :: fit (used + w a) l

/-- The items of several lists that are packed behind `used`. -/
def fitAll : Nat → List (List α) → List α
  | _, [] => []
  | used, l :: ls => fit w cap used l ++ fitAll (used + total w (fit w cap used l)) ls

theorem fit_cons (used : Nat) (a : α) (l : List α) :
    fit w cap used (a :: l) = if used + w a > cap then [] else a :: fit w cap (used + w a) l := rfl

theorem fitAll_cons (used : Nat) (l : List α) (ls : List (List α)) :
    fitAll w cap used (l :: ls) =
      fit w cap used l ++ fitAll w cap (used + total w (fit w cap used l)) ls := rfl

theorem total_cons (a : α) (l : List α) : total w (a :: l) = w a + total w l := by
  rw [total, List.map_cons, List.sum_cons, total]

/-- The weights of two lists are added. -/
theorem total_append (l l' : List α) :
    total w (l ++ l') = total w l + total w l' := by
  rw [total, List.map_append, List.sum_append, total, total]

/-- The weight does not depend on the order. -/
theorem total_perm {l l' : List α} (h : l.Perm l') : total w l = total w l' :=
  (h.map w).sum_eq

/-- An item weighs not more than its list. -/
theorem le_total {a : α} {l : List α} (h : a ∈ l) : w a ≤ total w l :=
  List.le_sum_of_mem (List.mem_map_of_mem h)

variable {w cap}

/-! ### What is packed fits -/

/-- What is packed keeps to the capacity. -/
theorem total_fit_le {used : Nat} (l : List α) (h : used ≤ cap) :
    used + total w (fit w cap used l) ≤ cap := by
  induction l generalizing used with
  | nil => simpa [fit, total] using h
  | cons a l ih =>
    simp only [fit_cons]
    split
    · simpa [total] using h
    · have hrest : used + w a + total w (fit w cap (used + w a) l) ≤ cap := ih (by omega)
      rw [total_cons]
      omega

/-- What is packed of several lists keeps to the capacity. -/
theorem total_fitAll_le {used : Nat} (ls : List (List α)) (h : used ≤ cap) :
    used + total w (fitAll w cap used ls) ≤ cap := by
  induction ls generalizing used with
  | nil => simpa [fitAll, total] using h
  | cons l ls ih =>
    have hrest := ih (total_fit_le (w := w) l h)
    rw [fitAll_cons, total_append]
    omega

/-! ### What is packed is part of the lists -/

/-- Items are packed in order. -/
theorem sublist_fit (used : Nat) (l : List α) : (fit w cap used l).Sublist l := by
  induction l generalizing used with
  | nil => exact List.Sublist.refl _
  | cons a l ih =>
    simp only [fit_cons]
    split
    · exact List.nil_sublist _
    · exact List.Sublist.cons_cons a (ih _)

/-- The items of several lists are packed in order. -/
theorem sublist_fitAll (used : Nat) (ls : List (List α)) :
    (fitAll w cap used ls).Sublist ls.flatten := by
  induction ls generalizing used with
  | nil => exact List.Sublist.refl _
  | cons l ls ih =>
    rw [fitAll_cons, List.flatten_cons]
    exact List.Sublist.append (sublist_fit used l) (ih _)

/-! ### When everything is packed -/

/-- A list that fits is packed whole. -/
theorem fit_eq_self {used : Nat} {l : List α} (h : used + total w l ≤ cap) :
    fit w cap used l = l := by
  induction l generalizing used with
  | nil => rfl
  | cons a l ih =>
    rw [total_cons] at h
    rw [fit_cons, if_neg (by omega), ih (by omega)]

/-- Lists that fit are packed whole. -/
theorem fitAll_eq_flatten {used : Nat} {ls : List (List α)}
    (h : used + total w ls.flatten ≤ cap) : fitAll w cap used ls = ls.flatten := by
  induction ls generalizing used with
  | nil => rfl
  | cons l ls ih =>
    rw [List.flatten_cons, total_append] at h
    have hl : fit w cap used l = l := fit_eq_self (by omega)
    rw [fitAll_cons, hl, List.flatten_cons, ih (by omega)]

/-- If the items are too many for the area, one of them is not packed. -/
theorem exists_notMem_fitAll {used : Nat} {ls : List (List α)} (hused : used ≤ cap)
    (hls : ls.flatten.Nodup) (h : cap < used + total w ls.flatten) :
    ∃ a ∈ ls.flatten, a ∉ fitAll w cap used ls := by
  by_contra hall
  have hsub : ls.flatten ⊆ fitAll w cap used ls := by
    intro a ha
    by_contra hnot
    exact hall ⟨a, ha, hnot⟩
  have hlen : ls.flatten.length ≤ (fitAll w cap used ls).length :=
    (List.Nodup.subperm hls hsub).length_le
  have heq : fitAll w cap used ls = ls.flatten := (sublist_fitAll used ls).eq_of_length_le hlen
  have hle := total_fitAll_le (w := w) ls hused
  rw [heq] at hle
  omega

end HandsomeMod.ForStd.Pack
