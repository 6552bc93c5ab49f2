import Mathlib

/-!
# Runs of a state machine

What holds of every step of a run, for a machine that takes one operation after the other.
A property can be shown to hold along a run exactly if all its operations meet a condition:
the condition keeps an invariant, and an operation that breaks it breaks the property.
-/

namespace HandsomeMod.ForStd

universe u v

variable {σ : Type u} {α : Type v} {step : σ → α → σ}

/-- `p` relates the states before and after every operation that a run takes from `s`. -/
def Along (step : σ → α → σ) (p : σ → α → σ → Prop) : σ → List α → Prop
  | _, [] => True
  | s, a :: ops => p s a (step s a) ∧ Along step p (step s a) ops

namespace Along

variable {p good allowed ok : σ → α → σ → Prop} {inv : σ → Prop} {s : σ} {ops : List α}

/-- Two properties that agree on every single operation agree along every run. -/
theorem congr (h : ∀ s a, p s a (step s a) ↔ good s a (step s a)) :
    Along step p s ops ↔ Along step good s ops := by
  induction ops generalizing s with
  | nil => exact Iff.rfl
  | cons a ops ih => exact and_congr (h s a) ih

/-- What holds of every operation of the list holds along the run. -/
theorem of_forall {p : α → Prop} (h : ∀ a ∈ ops, p a) : Along step (fun _ a _ => p a) s ops := by
  induction ops generalizing s with
  | nil => trivial
  | cons a ops ih => exact ⟨h a (by simp), ih fun b hb => h b (by simp [hb])⟩

/-- What every allowed operation preserves gives what it guarantees, along the whole run. -/
theorem of_invariant
    (hkeep : ∀ s a, inv s → allowed s a (step s a) → inv (step s a) ∧ good s a (step s a))
    (hinv : inv s) (hallowed : Along step allowed s ops) : Along step good s ops := by
  induction ops generalizing s with
  | nil => trivial
  | cons a ops ih =>
    obtain ⟨hnext, hgood⟩ := hkeep s a hinv hallowed.1
    exact ⟨hgood, ih hnext hallowed.2⟩

/-- Operations that meet `ok` keep the invariant and are good; all others are not good. -/
theorem iff_of_invariant
    (hkeep : ∀ s a, inv s → allowed s a (step s a) → ok s a (step s a) →
      inv (step s a) ∧ good s a (step s a))
    (hbreak : ∀ s a, inv s → allowed s a (step s a) → good s a (step s a) → ok s a (step s a))
    (hinv : inv s) (hallowed : Along step allowed s ops) :
    Along step good s ops ↔ Along step ok s ops := by
  induction ops generalizing s with
  | nil => exact Iff.rfl
  | cons a ops ih =>
    constructor
    · intro hgood
      have hok := hbreak s a hinv hallowed.1 hgood.1
      obtain ⟨hnext, -⟩ := hkeep s a hinv hallowed.1 hok
      exact ⟨hok, (ih hnext hallowed.2).mp hgood.2⟩
    · intro hok
      obtain ⟨hnext, hgood⟩ := hkeep s a hinv hallowed.1 hok.1
      exact ⟨hgood, (ih hnext hallowed.2).mpr hok.2⟩

end Along

end HandsomeMod.ForStd

/-!
## Reachable states

The states that a transition relation reaches from its initial states, and the rule that an
invariant of every step holds in all of them.
-/

namespace HandsomeMod.ForStd

universe u

/-- A state that some initial state reaches in finitely many steps. -/
def Reachable {σ : Type u} (init : σ → Prop) (step : σ → σ → Prop) (s : σ) : Prop :=
  ∃ s0, init s0 ∧ Relation.ReflTransGen step s0 s

namespace Reachable

variable {σ : Type u} {init : σ → Prop} {step : σ → σ → Prop} {s s' : σ}

/-- An initial state is reachable. -/
theorem start (h : init s) : Reachable init step s := ⟨s, h, .refl⟩

/-- A step leads from a reachable state to a reachable state. -/
theorem next (h : Reachable init step s) (hstep : step s s') : Reachable init step s' := by
  obtain ⟨s0, hinit, hrun⟩ := h
  exact ⟨s0, hinit, hrun.tail hstep⟩

/-- What holds initially and is preserved by every step holds in every reachable state. -/
theorem invariant {p : σ → Prop} (hinit : ∀ s, init s → p s)
    (hstep : ∀ s s', p s → step s s' → p s') (h : Reachable init step s) : p s := by
  obtain ⟨s0, h0, hrun⟩ := h
  induction hrun with
  | refl => exact hinit s0 h0
  | tail _ hlast ih => exact hstep _ _ ih hlast

end Reachable

end HandsomeMod.ForStd
