import Mathlib

/-!
# Machines that code a stream

A machine gives one output for each input and keeps a state. What it does to a stream does not
depend on how the stream is cut, and a relation between the states of two machines shows that one
of them undoes the other.
-/

namespace HandsomeMod.ForStd.Mealy

universe u v w x

variable {σ : Type u} {τ : Type v} {α : Type w} {β : Type x}

/-- The last state and the outputs. -/
def run (f : σ → α → σ × β) : σ → List α → σ × List β
  | s, [] => (s, [])
  | s, a :: l =>
    let (s, b) := f s a
    let (s, out) := run f s l
    (s, b :: out)

/-- The state after each input. -/
def states (f : σ → α → σ × β) : σ → List α → List σ
  | _, [] => []
  | s, a :: l => (f s a).1 :: states f (f s a).1 l

/-- A stream that arrives in pieces. -/
def runChunks (f : σ → α → σ × β) : σ → List (List α) → σ × List (List β)
  | s, [] => (s, [])
  | s, l :: ls =>
    let (s, out) := run f s l
    let (s, outs) := runChunks f s ls
    (s, out :: outs)

/-- The state after each input of a stream that arrives in pieces. -/
def statesChunks (f : σ → α → σ × β) : σ → List (List α) → List σ
  | _, [] => []
  | s, l :: ls => states f s l ++ statesChunks f (run f s l).1 ls

variable {f : σ → α → σ × β} {g : τ → β → τ × α}

/-- Each input has an output. -/
theorem length_run (s : σ) (l : List α) : (run f s l).2.length = l.length := by
  induction l generalizing s with
  | nil => rfl
  | cons a l ih =>
    simp only [run, List.length_cons]
    rw [ih]

/-- The second part of the inputs is run from where the first one ended. -/
theorem run_append (s : σ) (l l' : List α) : run f s (l ++ l') =
    ((run f (run f s l).1 l').1, (run f s l).2 ++ (run f (run f s l).1 l').2) := by
  induction l generalizing s with
  | nil => rfl
  | cons a l ih =>
    simp only [List.cons_append, run]
    rw [ih]

/-- The states of two parts come one after the other. -/
theorem states_append (s : σ) (l l' : List α) :
    states f s (l ++ l') = states f s l ++ states f (run f s l).1 l' := by
  induction l generalizing s with
  | nil => rfl
  | cons a l ih =>
    simp only [List.cons_append, states, run]
    rw [ih]

/-- Where a stream is cut makes no difference. -/
theorem run_flatten (s : σ) (ls : List (List α)) :
    run f s ls.flatten = ((runChunks f s ls).1, (runChunks f s ls).2.flatten) := by
  induction ls generalizing s with
  | nil => rfl
  | cons l ls ih =>
    rw [List.flatten_cons, run_append, ih]
    rfl

/-- How the inputs are cut into chunks does not matter. -/
theorem statesChunks_eq (s : σ) (ls : List (List α)) :
    statesChunks f s ls = states f s ls.flatten := by
  induction ls generalizing s with
  | nil => rfl
  | cons l ls ih =>
    rw [List.flatten_cons, states_append, statesChunks, ih]

/-- If every step of `g` undoes the step of `f` and keeps the states related, then `g` undoes `f` on
    streams. -/
theorem run_inverse {r : σ → τ → Prop}
    (hstep : ∀ s t a, r s t → (g t (f s a).2).2 = a ∧ r (f s a).1 (g t (f s a).2).1)
    {s : σ} {t : τ} (h : r s t) (l : List α) :
    (run g t (run f s l).2).2 = l ∧
      List.Forall₂ r (states f s l) (states g t (run f s l).2) := by
  induction l generalizing s t with
  | nil => exact ⟨rfl, .nil⟩
  | cons a l ih =>
    obtain ⟨hout, hnext⟩ := hstep s t a h
    obtain ⟨hrest, hall⟩ := ih hnext
    constructor
    · show (g t (f s a).2).2 :: _ = a :: l
      rw [hout]
      exact congrArg (a :: ·) hrest
    · exact .cons hnext hall

end HandsomeMod.ForStd.Mealy
