import Mathlib

/-!
# Association lists

Lists of key and value pairs, read with `List.lookup`, changed in place with `put` and `del`.
-/

namespace HandsomeMod.ForStd.Assoc

universe u v

variable {κ : Type u} {α : Type v} [DecidableEq κ]

/-- The keys in order. -/
def keys (l : List (κ × α)) : List κ := l.map Prod.fst

/-- Replace the value of `k` where it stands. -/
def replace (k : κ) (a : α) : List (κ × α) → List (κ × α)
  | [] => []
  | p :: l => if p.1 = k then (p.1, a) :: l else p :: replace k a l

/-- Replace the value of `k`, or put a new pair in front. -/
def put (k : κ) (a : α) (l : List (κ × α)) : List (κ × α) :=
  if k ∈ keys l then replace k a l else (k, a) :: l

/-- Remove the first pair with key `k`. -/
def del (k : κ) : List (κ × α) → List (κ × α)
  | [] => []
  | p :: l => if p.1 = k then l else p :: del k l

omit [DecidableEq κ] in
theorem keys_cons (p : κ × α) (l : List (κ × α)) : keys (p :: l) = p.1 :: keys l := rfl

theorem replace_cons (k : κ) (a : α) (p : κ × α) (l : List (κ × α)) :
    replace k a (p :: l) = if p.1 = k then (p.1, a) :: l else p :: replace k a l := rfl

theorem del_cons (k : κ) (p : κ × α) (l : List (κ × α)) :
    del k (p :: l) = if p.1 = k then l else p :: del k l := rfl

/-! ### Keys -/

/-- A replaced value does not change the keys. -/
theorem keys_replace (k : κ) (a : α) (l : List (κ × α)) : keys (replace k a l) = keys l := by
  induction l with
  | nil => rfl
  | cons p l ih =>
    rw [replace_cons]
    split
    · rfl
    · rw [keys_cons, keys_cons, ih]

/-- A new key comes to the front; a key that is there keeps its place. -/
theorem keys_put (k : κ) (a : α) (l : List (κ × α)) :
    keys (put k a l) = if k ∈ keys l then keys l else k :: keys l := by
  simp only [put]
  split
  · exact keys_replace k a l
  · rfl

/-- No key comes twice by `put`. -/
theorem nodup_put {l : List (κ × α)} (h : (keys l).Nodup) (k : κ) (a : α) :
    (keys (put k a l)).Nodup := by
  rw [keys_put]
  split
  · exact h
  · exact List.nodup_cons.mpr ⟨by assumption, h⟩

/-- What `del` leaves is in order. -/
theorem sublist_del (k : κ) (l : List (κ × α)) : List.Sublist (del k l) l := by
  induction l with
  | nil => exact List.Sublist.refl _
  | cons p l ih =>
    rw [del_cons]
    split
    · exact List.sublist_cons_self ..
    · exact List.Sublist.cons_cons _ ih

/-- No key comes twice by `del`. -/
theorem nodup_del {l : List (κ × α)} (h : (keys l).Nodup) (k : κ) : (keys (del k l)).Nodup :=
  List.Nodup.sublist (List.Sublist.map _ (sublist_del k l)) h

/-! ### Behind other keys -/

section Split

variable {k : κ} {a b : α} {l l' : List (κ × α)}

/-- `replace` changes the first entry with the key. -/
theorem replace_append (h : k ∉ keys l) :
    replace k a (l ++ (k, b) :: l') = l ++ (k, a) :: l' := by
  induction l with
  | nil => simp [replace]
  | cons p l ih =>
    rw [keys_cons, List.mem_cons, not_or] at h
    rw [List.cons_append, replace_cons, if_neg (Ne.symm h.1), ih h.2, List.cons_append]

/-- `put` changes the first entry with a key that is there. -/
theorem put_append (h : k ∉ keys l) : put k a (l ++ (k, b) :: l') = l ++ (k, a) :: l' := by
  rw [put, if_pos (by simp [keys]), replace_append h]

/-- `del` takes out the first entry with the key. -/
theorem del_append (h : k ∉ keys l) : del k (l ++ (k, b) :: l') = l ++ l' := by
  induction l with
  | nil => simp [del]
  | cons p l ih =>
    rw [keys_cons, List.mem_cons, not_or] at h
    rw [List.cons_append, del_cons, if_neg (Ne.symm h.1), ih h.2, List.cons_append]

/-- Nothing is deleted for a key that is not there. -/
theorem del_of_notMem (h : k ∉ keys l) : del k l = l := by
  induction l with
  | nil => rfl
  | cons p l ih =>
    rw [keys_cons, List.mem_cons, not_or] at h
    rw [del_cons, if_neg (Ne.symm h.1), ih h.2]

end Split

/-! ### `lookup` -/

section Lookup

variable [BEq κ] [LawfulBEq κ]

theorem lookup_cons (k : κ) (p : κ × α) (l : List (κ × α)) :
    (p :: l).lookup k = if p.1 = k then some p.2 else l.lookup k := by
  obtain ⟨k', a⟩ := p
  by_cases h : k' = k
  · subst h
    simp
  · have hne : (k == k') = false := beq_eq_false_iff_ne.mpr fun heq => h heq.symm
    simp [List.lookup_cons, hne, h]

/-- A lookup finds nothing exactly for a key that is not there. -/
theorem lookup_eq_none (k : κ) (l : List (κ × α)) : l.lookup k = none ↔ k ∉ keys l := by
  induction l with
  | nil => simp [keys]
  | cons p l ih =>
    rw [lookup_cons]
    by_cases h : p.1 = k
    · simp [h, keys_cons]
    · have hne : k ≠ p.1 := fun heq => h heq.symm
      rw [if_neg h, ih, keys_cons, List.mem_cons, not_or]
      exact ⟨fun hl => ⟨hne, hl⟩, fun hl => hl.2⟩

/-- What a lookup finds is an entry. -/
theorem mem_of_lookup {k : κ} {a : α} {l : List (κ × α)} (h : l.lookup k = some a) :
    (k, a) ∈ l := by
  induction l with
  | nil => cases h
  | cons p l ih =>
    rw [lookup_cons] at h
    split at h
    · rename_i hk
      obtain rfl := Option.some.inj h
      rw [← hk]
      exact List.mem_cons_self ..
    · exact List.mem_cons_of_mem _ (ih h)

/-- With different keys, the pairs of the list are what `lookup` finds. -/
theorem lookup_eq_some {k : κ} {a : α} {l : List (κ × α)} (hl : (keys l).Nodup) :
    l.lookup k = some a ↔ (k, a) ∈ l := by
  refine ⟨mem_of_lookup, fun hmem => ?_⟩
  induction l with
  | nil => cases hmem
  | cons p l ih =>
    obtain ⟨hp, hl⟩ := List.nodup_cons.mp hl
    rw [lookup_cons]
    obtain heq | hmem := List.mem_cons.mp hmem
    · rw [← heq, if_pos rfl]
    -- a pair further back has another key than the first one
    · have hne : p.1 ≠ k := by
        intro heq
        exact hp (heq ▸ List.mem_map_of_mem hmem)
      rw [if_neg hne, ih hl hmem]

/-- A lookup behind `replace` of a key that is there. -/
theorem lookup_replace (k k' : κ) (a : α) (l : List (κ × α)) (h : k ∈ keys l) :
    (replace k a l).lookup k' = if k' = k then some a else l.lookup k' := by
  -- the first pair of the key is replaced, and the lookup finds the first pair too
  induction l with
  | nil => cases h
  | cons p l ih =>
    rw [replace_cons]
    split
    · rename_i hk
      rw [lookup_cons, lookup_cons, hk]
      by_cases hk' : k' = k
      · rw [if_pos hk', if_pos hk'.symm]
      · rw [if_neg hk', if_neg fun heq => hk' heq.symm, if_neg fun heq => hk' heq.symm]
    · rename_i hk
      have hmem : k ∈ keys l := by
        obtain heq | hmem := List.mem_cons.mp h
        · exact absurd heq.symm hk
        · exact hmem
      rw [lookup_cons, lookup_cons, ih hmem]
      by_cases hk' : k' = k
      · rw [hk', if_neg hk, if_pos rfl, if_pos rfl]
      · rw [if_neg hk', if_neg hk']

/-- A lookup behind `put` finds the new value under its key, and the old ones elsewhere. -/
theorem lookup_put (k k' : κ) (a : α) (l : List (κ × α)) :
    (put k a l).lookup k' = if k' = k then some a else l.lookup k' := by
  simp only [put]
  split
  · rename_i hmem
    exact lookup_replace k k' a l hmem
  · rw [lookup_cons]
    by_cases h : k' = k
    · rw [if_pos h.symm, if_pos h]
    · rw [if_neg fun heq => h heq.symm, if_neg h]

/-- A lookup behind `del` finds nothing under that key, and the old values elsewhere. -/
theorem lookup_del {l : List (κ × α)} (h : (keys l).Nodup) (k k' : κ) :
    (del k l).lookup k' = if k' = k then none else l.lookup k' := by
  -- behind the first pair of the key there is no other one
  induction l with
  | nil => simp [del]
  | cons p l ih =>
    obtain ⟨hp, hl⟩ := List.nodup_cons.mp h
    rw [del_cons]
    split
    · rename_i hk
      rw [lookup_cons, hk]
      by_cases hk' : k' = k
      · rw [if_pos hk', lookup_eq_none, hk', ← hk]
        exact hp
      · rw [if_neg hk', if_neg fun heq => hk' heq.symm]
    · rename_i hk
      rw [lookup_cons, lookup_cons, ih hl]
      by_cases hk' : k' = k
      · rw [hk', if_neg hk, if_pos rfl, if_pos rfl]
      · rw [if_neg hk', if_neg hk']

end Lookup

end HandsomeMod.ForStd.Assoc
