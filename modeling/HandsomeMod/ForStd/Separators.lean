import Mathlib

/-!
# Separators

Lines that a character ends, and the regular expression `(.+?)sep`: the shortest prefix, not empty,
that a separator follows.
-/

namespace HandsomeMod.ForStd

universe u

variable {α : Type u} [BEq α]

/-! ### Lines -/

section Lines

variable [LawfulBEq α]

/-- A line does not have the character that ends it. -/
theorem not_mem_of_mem_splitOn {a : α} {s l : List α} (h : l ∈ s.splitOn a) : a ∉ l := by
  -- an element that is no separator goes to the front of the first part
  induction s generalizing l with
  | nil =>
    rw [List.splitOn_nil, List.mem_singleton] at h
    rw [h]
    exact List.not_mem_nil
  | cons x s ih =>
    rw [List.splitOn_cons_eq_if_modifyHead] at h
    split at h
    · rcases List.mem_cons.mp h with rfl | h
      · exact List.not_mem_nil
      · exact ih h
    · rename_i hx
      obtain ⟨first, rest, hsplit⟩ := List.exists_cons_of_ne_nil (List.splitOn_ne_nil a s)
      rw [hsplit, List.modifyHead_cons] at h
      rw [hsplit] at ih
      rcases List.mem_cons.mp h with rfl | h
      · rw [List.mem_cons, not_or]
        exact ⟨fun heq => hx (beq_iff_eq.mpr heq.symm), ih List.mem_cons_self⟩
      · exact ih (List.mem_cons_of_mem _ h)

/-- Every character is the separator or in a field. -/
theorem mem_splitOn_of_mem {a x : α} {s : List α} (h : x ∈ s) (hne : x ≠ a) : ∃ l ∈ s.splitOn a, x ∈ l := by
  -- an element that is no separator goes to the front of the first part
  induction s with
  | nil => exact absurd h List.not_mem_nil
  | cons y s ih =>
    obtain ⟨first, rest, hsplit⟩ := List.exists_cons_of_ne_nil (List.splitOn_ne_nil a s)
    rw [List.splitOn_cons_eq_if_modifyHead]
    split
    · rename_i hy
      rcases List.mem_cons.mp h with rfl | h
      · exact absurd (beq_iff_eq.mp hy) hne
      · obtain ⟨l, hl, hx⟩ := ih h
        exact ⟨l, List.mem_cons_of_mem _ hl, hx⟩
    · rw [hsplit, List.modifyHead_cons]
      rcases List.mem_cons.mp h with rfl | h
      · exact ⟨x :: first, List.mem_cons_self, List.mem_cons_self⟩
      · obtain ⟨l, hl, hx⟩ := ih h
        rw [hsplit] at hl
        rcases List.mem_cons.mp hl with rfl | hl
        · exact ⟨y :: l, List.mem_cons_self, List.mem_cons_of_mem _ hx⟩
        · exact ⟨l, List.mem_cons_of_mem _ hl, hx⟩

/-- The lines of a text that was put together from them, and nothing behind the last one. -/
theorem splitOn_flatMap {a : α} {ls : List (List α)} (h : ∀ l ∈ ls, a ∉ l) :
    (ls.flatMap fun l => l ++ [a]).splitOn a = ls ++ [[]] := by
  induction ls with
  | nil => exact List.splitOn_nil a
  | cons l ls ih =>
    rw [List.flatMap_cons, List.append_assoc, List.singleton_append,
      List.splitOn_append_cons_self_of_not_mem (h l List.mem_cons_self),
      ih fun l' hl' => h l' (List.mem_cons_of_mem _ hl')]
    rfl

end Lines

/-! ### Shortest matches -/

/-- The shortest prefix in front of `sep`, and what is behind `sep`, of which `more` holds. -/
def lazySplit (sep : List α) (more : List α → Bool) (s : List α) : Option (List α × List α) :=
  let found := (List.range s.length).find? fun n =>
    sep.isPrefixOf (s.drop (n + 1)) && more (s.drop (n + 1 + sep.length))
  found.map fun n => (s.take (n + 1), s.drop (n + 1 + sep.length))

variable [LawfulBEq α] {sep s pre post : List α} {more : List α → Bool}

/-- The parts of a match, and that no shorter prefix matches. -/
theorem lazySplit_spec (h : lazySplit sep more s = some (pre, post)) :
    s = pre ++ (sep ++ post) ∧ pre ≠ [] ∧ more post = true ∧
      ∀ i, 0 < i → i < pre.length → sep <+: s.drop i → more (s.drop (i + sep.length)) = false := by
  rw [lazySplit, Option.map_eq_some_iff] at h
  obtain ⟨n, hfound, hparts⟩ := h
  obtain ⟨rfl, rfl⟩ := Prod.mk.inj hparts
  rw [List.find?_range_eq_some, Bool.and_eq_true, List.isPrefixOf_iff_prefix] at hfound
  obtain ⟨⟨hsep, hmore⟩, hn, hfirst⟩ := hfound
  rw [List.mem_range] at hn
  have hlength : (s.take (n + 1)).length = n + 1 := List.length_take_of_le hn
  refine ⟨?_, ?_, hmore, ?_⟩
  · obtain ⟨post, hpost⟩ := hsep
    have hdrop : s.drop (n + 1 + sep.length) = post := by
      rw [← List.drop_drop, ← hpost, List.drop_left]
    rw [hdrop, hpost, List.take_append_drop]
  · exact List.ne_nil_of_length_pos (by omega)
  -- an earlier place was tried and refused
  · intro i hpos hi hprefix
    obtain ⟨j, rfl⟩ := Nat.exists_eq_succ_of_ne_zero (by omega : i ≠ 0)
    have hj := hfirst j (by omega)
    rw [Bool.not_eq_true', Bool.and_eq_false_iff] at hj
    rcases hj with hj | hj
    · rw [List.isPrefixOf_iff_prefix.mpr hprefix] at hj
      cases hj
    · exact hj

/-- A prefix in which the separator does not begin is matched. -/
theorem lazySplit_append (hne : pre ≠ []) (hmore : more post = true)
    (hfirst : ∀ i, 0 < i → i < pre.length → ¬sep <+: (pre ++ (sep ++ post)).drop i) :
    lazySplit sep more (pre ++ (sep ++ post)) = some (pre, post) := by
  have hpos := List.length_pos_iff.mpr hne
  obtain ⟨n, hn⟩ := Nat.exists_eq_succ_of_ne_zero (by omega : pre.length ≠ 0)
  have hdrop : (pre ++ (sep ++ post)).drop (n + 1 + sep.length) = post := by
    rw [← List.drop_drop, List.drop_left' hn, List.drop_left]
  rw [lazySplit, Option.map_eq_some_iff]
  -- the split is at the end of `pre`, and no earlier place has the separator
  refine ⟨n, ?_, ?_⟩
  · rw [List.find?_range_eq_some, Bool.and_eq_true, List.isPrefixOf_iff_prefix]
    refine ⟨⟨?_, ?_⟩, ?_, ?_⟩
    · rw [List.drop_left' hn]
      exact List.prefix_append _ _
    · rw [hdrop]
      exact hmore
    · rw [List.mem_range, List.length_append]
      omega
    · intro j hj
      rw [Bool.not_eq_true', Bool.and_eq_false_iff]
      left
      rw [Bool.eq_false_iff, ne_eq, List.isPrefixOf_iff_prefix]
      exact hfirst (j + 1) (by omega) (by omega)
  · rw [List.take_left' hn, hdrop]

end HandsomeMod.ForStd
