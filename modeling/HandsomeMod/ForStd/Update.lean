import Mathlib

/-!
# Loops that update a table

A loop that visits every index once and changes the entry at that index only.
-/

namespace HandsomeMod.ForStd

universe u v w

variable {σ : Type u} {ι : Type v} {κ : Type w} {α : Type*} [DecidableEq κ]

/-- `get` reads the table that a loop over `l` updates: at `idx i` it applies `f i`. Entries of
    indices that are visited have changed once, all others not at all. -/
theorem foldl_update (get : σ → κ → α) (idx : ι → κ) (f : ι → α → α) (g : σ → ι → σ)
    {l : List ι} (hl : (l.map idx).Nodup)
    (hg : ∀ i ∈ l, ∀ s k, get (g s i) k = if k = idx i then f i (get s k) else get s k) (s : σ) :
    (∀ i ∈ l, get (l.foldl g s) (idx i) = f i (get s (idx i))) ∧
      ∀ k, k ∉ l.map idx → get (l.foldl g s) k = get s k := by
  -- the step of `j` changes only its own key, which no later step touches
  induction l generalizing s with
  | nil => exact ⟨fun i hi => absurd hi List.not_mem_nil, fun _ _ => rfl⟩
  | cons j l ih =>
    rw [List.map_cons, List.nodup_cons] at hl
    have hj := hg j List.mem_cons_self
    obtain ⟨hin, hout⟩ := ih hl.2 (fun i hi => hg i (List.mem_cons_of_mem j hi)) (g s j)
    rw [List.foldl_cons]
    constructor
    · intro i hi
      obtain rfl | hi := List.mem_cons.mp hi
      · rw [hout _ hl.1, hj, if_pos rfl]
      · have hne : idx i ≠ idx j := by
          intro h
          exact hl.1 (h ▸ List.mem_map_of_mem hi)
        rw [hin i hi, hj, if_neg hne]
    · intro k hk
      rw [List.map_cons, List.mem_cons, not_or] at hk
      rw [hout k hk.2, hj, if_neg hk.1]

end HandsomeMod.ForStd
