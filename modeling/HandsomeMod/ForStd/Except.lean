import Mathlib.Logic.Basic

/-!
# Computations that can fail

What follows from the success of a computation in `Except`.
-/

namespace HandsomeMod.ForStd

universe u v

variable {ε : Type u} {α β : Type v}

/-- The first part of a successful computation is successful. -/
theorem bind_ok {x : Except ε α} {f : α → Except ε β} {b : β} (h : (x >>= f) = .ok b) :
    ∃ a, x = .ok a ∧ f a = .ok b := by
  cases x with
  | error e => cases h
  | ok a => exact ⟨a, rfl, h⟩

/-- A failed computation fails in its first part, or behind it. -/
theorem bind_error {x : Except ε α} {f : α → Except ε β} {e : ε} (h : (x >>= f) = .error e) :
    x = .error e ∨ ∃ a, x = .ok a ∧ f a = .error e := by
  cases x with
  | error e' =>
    cases h
    exact .inl rfl
  | ok a => exact .inr ⟨a, rfl, h⟩

/-- A computation in two parts has a result if both have. -/
theorem exists_bind_ok_iff {x : Except ε α} {f : α → Except ε β} :
    (∃ b, (x >>= f) = .ok b) ↔ ∃ a, x = .ok a ∧ ∃ b, f a = .ok b := by
  cases x with
  | error e => exact ⟨fun ⟨_, h⟩ => (by cases h), fun ⟨_, h, _⟩ => (by cases h)⟩
  | ok a =>
    constructor
    · exact fun h => ⟨a, rfl, h⟩
    · rintro ⟨a', h, hb⟩
      cases h
      exact hb

/-- A failed computation has no result. -/
theorem not_exists_ok (e : ε) : ¬∃ a : α, (Except.error e : Except ε α) = .ok a := by
  rintro ⟨a, ha⟩
  cases ha

/-- A value that is there. -/
theorem exists_ok_of_isOk {x : Except ε α} (h : x.isOk = true) : ∃ a, x = .ok a := by
  cases x with
  | ok a => exact ⟨a, rfl⟩
  | error e => cases h

/-- A computation gives a result with `P`, or fails with `E`. -/
def Ensures (E : ε → Prop) (P : α → Prop) : Except ε α → Prop
  | .ok a => P a
  | .error e => E e

/-- A weaker postcondition. -/
theorem Ensures.mono {E : ε → Prop} {P Q : α → Prop} {x : Except ε α} (h : Ensures E P x)
    (hpq : ∀ a, P a → Q a) : Ensures E Q x := by
  cases x with
  | ok a => exact hpq a h
  | error e => exact h

/-- The rule of composition: what the first part ensures is what the second starts from. -/
theorem Ensures.bind {E : ε → Prop} {P : α → Prop} {Q : β → Prop} {x : Except ε α}
    {f : α → Except ε β} (h : Ensures E P x) (hf : ∀ a, P a → Ensures E Q (f a)) :
    Ensures E Q (x >>= f) := by
  cases x with
  | ok a => exact hf a h
  | error e => exact h

/-- A computation whose one way to fail is excluded has a result. -/
theorem Ensures.exists_ok {e : ε} {P : α → Prop} {x : Except ε α} (h : Ensures (· = e) P x)
    (hne : x ≠ .error e) : ∃ a, x = .ok a ∧ P a := by
  cases x with
  | ok a => exact ⟨a, rfl, h⟩
  | error e' => exact absurd (congrArg Except.error h) hne

/-- A computation that fails otherwise does not ensure anything. -/
theorem not_ensures_of_error {E : ε → Prop} {P : α → Prop} {x : Except ε α} {e : ε}
    (hx : x.map (fun _ => ()) = .error e) (he : ¬E e) : ¬Ensures E P x := by
  cases x with
  | ok a => cases hx
  | error e' =>
    cases hx
    exact he

/-- Behind a success the computation goes on. -/
theorem ok_bind (a : α) (f : α → Except ε β) : (Except.ok a >>= f) = f a := rfl

/-- Each operation of a run meets `p` in the state that it finds. -/
def Meets {σ ι : Type v} (f : σ → ι → Except ε σ) (p : σ → ι → Prop) : σ → List ι → Prop
  | _, [] => True
  | s, i :: is => p s i ∧ ∀ s', f s i = .ok s' → Meets f p s' is

/-- A condition on the inputs alone may be added to that of a run. -/
theorem Meets.and_forall {σ ι : Type v} {f : σ → ι → Except ε σ} {p : σ → ι → Prop} {q : ι → Prop}
    {s : σ} {is : List ι} (h : Meets f p s is) (hq : ∀ i ∈ is, q i) :
    Meets f (fun s i => q i ∧ p s i) s is := by
  induction is generalizing s with
  | nil => trivial
  | cons i is ih =>
    obtain ⟨hi, his⟩ := List.forall_mem_cons.mp hq
    exact ⟨⟨hi, h.1⟩, fun s' hs' => ih (h.2 s' hs') his⟩

/-- What each operation that meets `p` preserves, a run of them preserves. -/
theorem Meets.ensures {σ ι : Type v} {f : σ → ι → Except ε σ} {p : σ → ι → Prop} {E : ε → Prop}
    {inv : σ → Prop} {s : σ} {is : List ι} (hstep : ∀ s i, inv s → p s i → Ensures E inv (f s i))
    (h : Meets f p s is) (hinv : inv s) : Ensures E inv (is.foldlM f s) := by
  induction is generalizing s with
  | nil => exact hinv
  | cons i is ih =>
    have hs := hstep s i hinv h.1
    rw [List.foldlM_cons]
    cases hi : f s i with
    | error e =>
      rw [hi] at hs
      exact hs
    | ok s' =>
      rw [hi] at hs
      exact ih (h.2 s' hi) hs

end HandsomeMod.ForStd
