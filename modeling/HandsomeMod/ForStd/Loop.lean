import Mathlib

/-!
# Loops without a bound

A loop takes turns until one of them ends it. Where the position of a loop never goes back and there
is nothing behind some bound, the loop ends exactly if it never stays where it is.
-/

namespace HandsomeMod.ForStd.Loop

universe u v

variable {σ : Type u} {α : Type v}

/-- The result of a loop, if it ends within a number of turns. -/
def run (turn : σ → α ⊕ σ) : Nat → σ → Option α
  | 0, _ => none
  | fuel + 1, s =>
    match turn s with
    | .inl a => some a
    | .inr s' => run turn fuel s'

/-- The loop ends. -/
def Terminates (turn : σ → α ⊕ σ) (s : σ) : Prop := ∃ fuel a, run turn fuel s = some a

/-- The states that the loop comes to. -/
def Reaches (turn : σ → α ⊕ σ) : σ → σ → Prop :=
  Relation.ReflTransGen fun s s' => turn s = .inr s'

variable {turn : σ → α ⊕ σ} {s s' : σ}

/-- A turn that ends the loop gives its result. -/
theorem run_of_inl {a : α} (h : turn s = .inl a) (fuel : Nat) :
    run turn (fuel + 1) s = some a := by
  rw [run, h]

/-- A turn that goes on takes one unit of fuel. -/
theorem run_of_inr (h : turn s = .inr s') (fuel : Nat) :
    run turn (fuel + 1) s = run turn fuel s' := by
  rw [run, h]

/-- A loop whose turn ends it terminates. -/
theorem terminates_of_inl {a : α} (h : turn s = .inl a) : Terminates turn s :=
  ⟨1, a, run_of_inl h 0⟩

/-- A turn does not change whether the loop terminates. -/
theorem terminates_inr_iff (h : turn s = .inr s') : Terminates turn s ↔ Terminates turn s' := by
  constructor
  · rintro ⟨fuel, a, hrun⟩
    cases fuel with
    | zero => cases hrun
    | succ fuel =>
      rw [run_of_inr h] at hrun
      exact ⟨fuel, a, hrun⟩
  · rintro ⟨fuel, a, hrun⟩
    exact ⟨fuel + 1, a, by rw [run_of_inr h]; exact hrun⟩

/-- Nor do several turns. -/
theorem Reaches.terminates (h : Reaches turn s s') : Terminates turn s ↔ Terminates turn s' := by
  induction h with
  | refl => exact Iff.rfl
  | tail _ hlast ih => exact ih.trans (terminates_inr_iff hlast)

/-- What every turn preserves holds wherever the loop comes to. -/
theorem Reaches.invariant {P : σ → Prop} (hstep : ∀ s s', P s → turn s = .inr s' → P s')
    (h : Reaches turn s s') (hs : P s) : P s' := by
  induction h with
  | refl => exact hs
  | tail _ hlast ih => exact hstep _ _ ih hlast

/-- A loop that ends does so at a state that it comes to. -/
theorem reaches_of_run {fuel : Nat} {a : α} (h : run turn fuel s = some a) :
    ∃ s', Reaches turn s s' ∧ turn s' = .inl a := by
  induction fuel generalizing s with
  | zero => cases h
  | succ fuel ih =>
    cases hturn : turn s with
    | inl b =>
      rw [run_of_inl hturn] at h
      cases h
      exact ⟨s, .refl, hturn⟩
    | inr t =>
      rw [run_of_inr hturn] at h
      obtain ⟨s', hreach, hend⟩ := ih h
      exact ⟨s', Relation.ReflTransGen.head hturn hreach, hend⟩

/-- A loop gives the same result from every state that it comes to, and not later. -/
theorem Reaches.exists_run_le (h : Reaches turn s s') {fuel : Nat} {a : α}
    (hrun : run turn fuel s = some a) : ∃ fuel' ≤ fuel, run turn fuel' s' = some a := by
  induction h with
  | refl => exact ⟨fuel, le_rfl, hrun⟩
  | tail _ hlast ih =>
    obtain ⟨fuel', hle, hrun'⟩ := ih
    cases fuel' with
    | zero => cases hrun'
    | succ fuel' =>
      rw [run_of_inr hlast] at hrun'
      exact ⟨fuel', by omega, hrun'⟩

/-- A run that gives a result gives it from the states on its way too. -/
theorem Reaches.exists_run (h : Reaches turn s s') {fuel : Nat} {a : α}
    (hrun : run turn fuel s = some a) : ∃ fuel', run turn fuel' s' = some a := by
  obtain ⟨fuel', -, hrun'⟩ := h.exists_run_le hrun
  exact ⟨fuel', hrun'⟩

/-- What a loop gives from a state that it comes to is what it gives. -/
theorem Reaches.exists_run_of (h : Reaches turn s s') {fuel : Nat} {a : α}
    (hrun : run turn fuel s' = some a) : ∃ fuel', run turn fuel' s = some a := by
  induction h using Relation.ReflTransGen.head_induction_on with
  | refl => exact ⟨fuel, hrun⟩
  | head hfirst _ ih =>
    obtain ⟨fuel', hrun'⟩ := ih
    exact ⟨fuel' + 1, by rw [run_of_inr hfirst]; exact hrun'⟩

/-- A loop that goes on wherever something holds, and comes to where it holds again, does not
end. -/
theorem not_terminates_of_invariant {P : σ → Prop}
    (hstep : ∀ s, P s → ∃ s', Relation.TransGen (fun s s' => turn s = .inr s') s s' ∧ P s')
    (h : P s) : ¬Terminates turn s := by
  rintro ⟨fuel, a, hrun⟩
  induction fuel using Nat.strong_induction_on generalizing s with
  | _ fuel ih =>
    obtain ⟨s', htrans, hs'⟩ := hstep s h
    obtain ⟨t, hturn, hrest⟩ := Relation.TransGen.head'_iff.mp htrans
    cases fuel with
    | zero => cases hrun
    | succ fuel =>
      rw [run_of_inr hturn] at hrun
      obtain ⟨fuel', hle, hrun'⟩ := Reaches.exists_run_le hrest hrun
      exact ih fuel' (by omega) hs' hrun'

/-- A relation that gives one state at most comes to one state at most that it does not leave. -/
theorem unique_of_ends {r : σ → σ → Prop} (hr : Relator.RightUnique r) {t t' : σ}
    (ht : Relation.ReflTransGen r s t) (ht' : Relation.ReflTransGen r s t')
    (hend : ∀ u, ¬r t u) (hend' : ∀ u, ¬r t' u) : t = t' := by
  have hlast : ∀ {u v : σ}, (∀ x, ¬r u x) → Relation.ReflTransGen r u v → u = v := by
    intro u v hu huv
    rcases Relation.ReflTransGen.cases_head huv with heq | ⟨x, hx, -⟩
    · exact heq
    · exact absurd hx (hu x)
  rcases Relation.ReflTransGen.total_of_right_unique hr ht ht' with h | h
  · exact hlast hend h
  · exact (hlast hend' h).symm

/-- What the loop ends with where a turn ends it. -/
theorem eq_of_run_inl {a b : α} (h : turn s = .inl b) {fuel : Nat}
    (hrun : run turn fuel s = some a) : b = a := by
  cases fuel with
  | zero => cases hrun
  | succ fuel =>
    rw [run_of_inl h] at hrun
    exact Option.some.inj hrun

/-- What a loop that ends gives is what a turn gives at a state that it comes to. -/
theorem run_eq_some_iff {fuel : Nat} {a : α} (h : ∃ b, run turn fuel s = some b) :
    run turn fuel s = some a ↔ ∃ s', Reaches turn s s' ∧ turn s' = .inl a := by
  constructor
  · exact reaches_of_run
  · rintro ⟨s', hreach, hturn⟩
    obtain ⟨b, hb⟩ := h
    obtain ⟨fuel', hrun⟩ := hreach.exists_run hb
    rw [hb, eq_of_run_inl hturn hrun]

section Position

variable {pos : σ → Nat} {bound : Nat}

/-- A loop that advances with every turn below a bound ends within that many turns. -/
theorem exists_run_of_advances (pos : σ → Nat) (bound : Nat)
    (hstep : ∀ s s', turn s = .inr s' → pos s < bound ∧ pos s < pos s') {fuel : Nat}
    (hfuel : bound < pos s + fuel) (hpos : 0 < fuel) : ∃ a, run turn fuel s = some a := by
  induction fuel generalizing s with
  | zero => omega
  | succ fuel ih =>
    cases hturn : turn s with
    | inl a => exact ⟨a, run_of_inl hturn fuel⟩
    | inr s' =>
      obtain ⟨hlt, hadvance⟩ := hstep s s' hturn
      rw [run_of_inr hturn]
      exact ih (by omega) (by omega)

/-- A loop that stays where it is does so forever. -/
theorem not_terminates_of_stays
    (hstay : ∀ s s', turn s = .inr s' → pos s' = pos s →
      ∃ s'', turn s' = .inr s'' ∧ pos s'' = pos s')
    (h : turn s = .inr s') (hpos : pos s' = pos s) : ¬Terminates turn s := by
  refine not_terminates_of_invariant (P := fun s => ∃ s', turn s = .inr s' ∧ pos s' = pos s)
    ?_ ⟨s', h, hpos⟩
  rintro s ⟨s', hturn, hsame⟩
  exact ⟨s', .single hturn, hstay s s' hturn hsame⟩

/-- A loop that advances with every turn ends. -/
theorem terminates_of_advances (hbound : ∀ s s', turn s = .inr s' → pos s < bound)
    (hadvance : ∀ t t', Reaches turn s t → turn t = .inr t' → pos t < pos t') :
    Terminates turn s := by
  induction hk : bound - pos s using Nat.strong_induction_on generalizing s with
  | _ k ih =>
    cases hturn : turn s with
    | inl a => exact terminates_of_inl hturn
    | inr s' =>
      have hlt := hadvance s s' .refl hturn
      have hin := hbound s s' hturn
      rw [terminates_inr_iff hturn]
      exact ih (bound - pos s') (by omega)
        (fun t t' ht => hadvance t t' (Relation.ReflTransGen.head hturn ht)) rfl

/-- The loop ends exactly if it advances with every turn that it takes. -/
theorem terminates_iff (hbound : ∀ s s', turn s = .inr s' → pos s < bound)
    (hle : ∀ s s', turn s = .inr s' → pos s ≤ pos s')
    (hstay : ∀ s s', turn s = .inr s' → pos s' = pos s →
      ∃ s'', turn s' = .inr s'' ∧ pos s'' = pos s') :
    Terminates turn s ↔ ∀ t t', Reaches turn s t → turn t = .inr t' → pos t < pos t' := by
  constructor
  · intro hterm t t' hreach hturn
    refine Nat.lt_of_le_of_ne (hle t t' hturn) fun heq => ?_
    exact not_terminates_of_stays hstay hturn heq.symm (hreach.terminates.mp hterm)
  · exact terminates_of_advances hbound

/-! ### A loop that follows its position -/

/-- The positions from one on, each the next of the one before it. -/
def Visits (next : Nat → Option Nat) : Nat → Nat → Prop :=
  Relation.ReflTransGen fun i j => next i = some j

variable {next : Nat → Option Nat}

/-- There is one position at most that has no next one. -/
theorem Visits.unique {i j k : Nat} (hj : Visits next i j) (hk : Visits next i k)
    (hendj : next j = none) (hendk : next k = none) : j = k := by
  have hright : Relator.RightUnique fun i j => next i = some j := by
    intro a b c hb hc
    rw [hb] at hc
    exact Option.some.inj hc
  exact unique_of_ends hright hj hk (fun u hu => by simp [hendj] at hu)
    (fun u hu => by simp [hendk] at hu)

/-- A turn moves the position as `next` says. -/
theorem next_of_turn (hnext : ∀ s, (turn s).getRight?.map pos = next (pos s))
    (h : turn s = .inr s') : next (pos s) = some (pos s') := by
  rw [← hnext, h]
  rfl

/-- Where `next` goes on, the loop has a turn. -/
theorem turn_of_next (hnext : ∀ s, (turn s).getRight?.map pos = next (pos s)) {i : Nat}
    (h : next (pos s) = some i) : ∃ s', turn s = .inr s' ∧ pos s' = i := by
  rw [← hnext, Option.map_eq_some_iff] at h
  obtain ⟨s', hturn, hpos⟩ := h
  exact ⟨s', Sum.getRight?_eq_some_iff.mp hturn, hpos⟩

/-- The positions of the states that are reached are visited. -/
theorem Reaches.visits (hnext : ∀ s, (turn s).getRight?.map pos = next (pos s))
    (h : Reaches turn s s') : Visits next (pos s) (pos s') := by
  induction h with
  | refl => exact .refl
  | tail _ hlast ih => exact ih.tail (next_of_turn hnext hlast)

/-- A position that is visited belongs to a state that is reached. -/
theorem Visits.reaches (hnext : ∀ s, (turn s).getRight?.map pos = next (pos s)) {i : Nat}
    (h : Visits next (pos s) i) : ∃ s', Reaches turn s s' ∧ pos s' = i := by
  induction h with
  | refl => exact ⟨s, .refl, rfl⟩
  | tail _ hlast ih =>
    obtain ⟨t, hreach, rfl⟩ := ih
    obtain ⟨t', hturn, hpos⟩ := turn_of_next hnext hlast
    exact ⟨t', hreach.tail hturn, hpos⟩

/-- Where the next position depends on the position alone, the loop ends exactly if each position
that it visits is behind the one before it. -/
theorem terminates_iff_visits (hnext : ∀ s, (turn s).getRight?.map pos = next (pos s))
    (hbound : ∀ i j, next i = some j → i < bound) (hle : ∀ i j, next i = some j → i ≤ j) :
    Terminates turn s ↔ ∀ i j, Visits next (pos s) i → next i = some j → i < j := by
  -- a turn that keeps the position is followed by another that keeps it
  have hstay : ∀ s s', turn s = .inr s' → pos s' = pos s →
      ∃ s'', turn s' = .inr s'' ∧ pos s'' = pos s' := by
    intro s s' hturn hpos
    have hsame : next (pos s') = some (pos s') := by
      rw [hpos, next_of_turn hnext hturn, hpos]
    exact turn_of_next hnext hsame
  rw [terminates_iff (fun t t' h => hbound _ _ (next_of_turn hnext h))
    (fun t t' h => hle _ _ (next_of_turn hnext h)) hstay]
  constructor
  · intro hadvance i j hvisits hij
    obtain ⟨t, hreach, rfl⟩ := hvisits.reaches hnext
    obtain ⟨t', hturn, rfl⟩ := turn_of_next hnext hij
    exact hadvance t t' hreach hturn
  · intro hadvance t t' hreach hturn
    exact hadvance _ _ (hreach.visits hnext) (next_of_turn hnext hturn)

/-- No position that is visited from `i` on is visited again behind itself. -/
def Acyclic (next : Nat → Option Nat) (i : Nat) : Prop :=
  ∀ j k, Visits next i j → next j = some k → ¬Visits next k j

/-- A loop that comes back to a position does not end. -/
theorem not_terminates_of_cycle (hnext : ∀ s, (turn s).getRight?.map pos = next (pos s))
    {i j : Nat} (hij : next i = some j) (hback : Visits next j i) (hs : Visits next j (pos s))
    (hs' : Visits next (pos s) i) : ¬Terminates turn s := by
  refine not_terminates_of_invariant
    (P := fun s => Visits next j (pos s) ∧ Visits next (pos s) i) ?_ ⟨hs, hs'⟩
  rintro s ⟨hs, hs'⟩
  -- every position on the cycle has a next one on the cycle
  obtain ⟨k, hk, hvisits⟩ : ∃ k, next (pos s) = some k ∧ Visits next k i := by
    rcases Relation.ReflTransGen.cases_head hs' with heq | ⟨k, hk, hki⟩
    · exact ⟨j, heq ▸ hij, hback⟩
    · exact ⟨k, hk, hki⟩
  obtain ⟨s', hturn, rfl⟩ := turn_of_next hnext hk
  exact ⟨s', .single hturn, hs.tail hk, hvisits⟩

/-- Where the next position depends on the position alone, and there are only so many positions, the
loop ends exactly if it does not come back to a position. -/
theorem terminates_iff_acyclic (hnext : ∀ s, (turn s).getRight?.map pos = next (pos s))
    (hbound : ∀ s s', turn s = .inr s' → pos s < bound) :
    Terminates turn s ↔ Acyclic next (pos s) := by
  constructor
  · intro hterm i j hvisits hij hback
    obtain ⟨t, hreach, rfl⟩ := hvisits.reaches hnext
    exact not_terminates_of_cycle hnext hij hback hback .refl (hreach.terminates.mp hterm)
  · intro hacyclic
    -- the positions that are still to come, of which there are fewer with every turn
    let r : Fin bound → Fin bound → Prop := fun a b =>
      Visits next (pos s) b ∧ Relation.TransGen (fun i j => next i = some j) b.val a.val
    have htrans : IsTrans (Fin bound) r := ⟨fun a b c hab hbc => ⟨hbc.1, hbc.2.trans hab.2⟩⟩
    -- a position that comes again would be a cycle
    have hirrefl : Std.Irrefl r := by
      constructor
      rintro a ⟨hvisits, hcycle⟩
      obtain ⟨j, hj, hback⟩ := Relation.TransGen.head'_iff.mp hcycle
      exact hacyclic a j hvisits hj hback
    have hwf : WellFounded r := Finite.wellFounded_of_trans_of_irrefl r
    have hall : ∀ a : Fin bound, ∀ t, pos t = a → Visits next (pos s) (pos t) →
        Terminates turn t := by
      intro a
      induction a using hwf.induction with
      | _ a ih =>
        intro t ht hvisits
        cases hturn : turn t with
        | inl b => exact terminates_of_inl hturn
        | inr t' =>
          rw [terminates_inr_iff hturn]
          have hstep := next_of_turn hnext hturn
          have hvisits' : Visits next (pos s) (pos t') := hvisits.tail hstep
          by_cases hlt : pos t' < bound
          · refine ih ⟨pos t', hlt⟩ ⟨ht ▸ hvisits, ?_⟩ t' rfl hvisits'
            rw [← ht]
            exact .single hstep
          · cases hturn' : turn t' with
            | inl b => exact terminates_of_inl hturn'
            | inr u => exact absurd (hbound _ _ hturn') hlt
    cases hturn : turn s with
    | inl a => exact terminates_of_inl hturn
    | inr t => exact hall ⟨pos s, hbound _ _ hturn⟩ s rfl .refl

end Position

/-! ### A loop inside a loop -/

section Nested

universe w x

variable {κ : Type w} {τ : Type x}

/-- A turn of the outer loop ends it, goes on with it or enters the inner loop, which a turn leaves
in the same way. What is fixed in the inner loop stands beside its state. -/
def nest (enter : σ → (α ⊕ σ) ⊕ κ × τ) (inner : κ → τ → (α ⊕ σ) ⊕ τ) :
    σ ⊕ κ × τ → α ⊕ (σ ⊕ κ × τ)
  | .inl s =>
    match enter s with
    | .inl (.inl a) => .inl a
    | .inl (.inr s') => .inr (.inl s')
    | .inr t => .inr (.inr t)
  | .inr (k, t) =>
    match inner k t with
    | .inl (.inl a) => .inl a
    | .inl (.inr s') => .inr (.inl s')
    | .inr t' => .inr (.inr (k, t'))

variable {enter : σ → (α ⊕ σ) ⊕ κ × τ} {inner : κ → τ → (α ⊕ σ) ⊕ τ} {k : κ} {t t' : τ}

theorem nest_inl (s : σ) : nest enter inner (.inl s) =
    match enter s with
    | .inl (.inl a) => .inl a
    | .inl (.inr s') => .inr (.inl s')
    | .inr t => .inr (.inr t) := rfl

theorem nest_inr (k : κ) (t : τ) : nest enter inner (.inr (k, t)) =
    match inner k t with
    | .inl (.inl a) => .inl a
    | .inl (.inr s') => .inr (.inl s')
    | .inr t' => .inr (.inr (k, t')) := rfl

/-- The outer turn ends the loop. -/
theorem nest_inl_end {a : α} (h : enter s = .inl (.inl a)) :
    nest enter inner (.inl s) = .inl a := by
  rw [nest_inl, h]

/-- The outer turn goes on by itself. -/
theorem nest_inl_next (h : enter s = .inl (.inr s')) :
    nest enter inner (.inl s) = .inr (.inl s') := by
  rw [nest_inl, h]

/-- The outer turn starts the inner loop. -/
theorem nest_inl_enter (h : enter s = .inr (k, t)) :
    nest enter inner (.inl s) = .inr (.inr (k, t)) := by
  rw [nest_inl, h]

/-- The inner turn ends both loops. -/
theorem nest_inr_end {a : α} (h : inner k t = .inl (.inl a)) :
    nest enter inner (.inr (k, t)) = .inl a := by
  rw [nest_inr, h]

/-- The inner turn ends its loop. -/
theorem nest_inr_leave (h : inner k t = .inl (.inr s')) :
    nest enter inner (.inr (k, t)) = .inr (.inl s') := by
  rw [nest_inr, h]

/-- The inner turn goes on. -/
theorem nest_inr_next (h : inner k t = .inr t') :
    nest enter inner (.inr (k, t)) = .inr (.inr (k, t')) := by
  rw [nest_inr, h]

/-- The turns of the inner loop are turns of both. -/
theorem Reaches.nest (h : Reaches (inner k) t t') :
    Reaches (Loop.nest enter inner) (.inr (k, t)) (.inr (k, t')) := by
  induction h with
  | refl => exact .refl
  | tail _ hlast ih => exact ih.tail (nest_inr_next hlast)

/-- Where both loops end, so does the inner one. -/
theorem terminates_of_nest (h : Terminates (nest enter inner) (.inr (k, t))) :
    Terminates (inner k) t := by
  obtain ⟨fuel, a, hrun⟩ := h
  induction fuel generalizing t with
  | zero => cases hrun
  | succ fuel ih =>
    cases hturn : inner k t with
    | inl b => exact terminates_of_inl hturn
    | inr t' =>
      rw [run_of_inr (nest_inr_next hturn)] at hrun
      rw [terminates_inr_iff hturn]
      exact ih hrun

end Nested

end HandsomeMod.ForStd.Loop
