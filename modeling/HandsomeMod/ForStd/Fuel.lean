import HandsomeMod.ForStd.Loop

/-!
# Programs with loops without a bound

A program runs its loops within a number of turns, and may fail. It gives a result if it does so
within some number of turns; more turns make no difference then.
-/

namespace HandsomeMod.ForStd

namespace Loop

universe u v

variable {σ : Type u} {α : Type v} {turn : σ → α ⊕ σ} {s : σ}

/-- More fuel does not change a result. -/
theorem run_mono {m n : Nat} {a : α} (hle : m ≤ n) (h : run turn m s = some a) :
    run turn n s = some a := by
  induction m generalizing n s with
  | zero => cases h
  | succ m ih =>
    cases n with
    | zero => omega
    | succ n =>
      rw [run] at h ⊢
      cases hturn : turn s with
      | inl b =>
        rw [hturn] at h
        exact h
      | inr s' =>
        rw [hturn] at h
        exact ih (by omega) h

end Loop

/-- A program that has a number of turns for its loops, and can fail. -/
abbrev Fueled (ε α : Type) : Type := Nat → ExceptT ε Option α

namespace Fueled

variable {ε α β : Type}

/-- A computation without loops -/
def lift (x : Except ε α) : ExceptT ε Option α := ExceptT.mk (some x)

/-- The program ends with `a`. -/
def Gives (x : Fueled ε α) (a : α) : Prop := ∃ fuel, (x fuel).run = some (.ok a)

/-- More turns do not change how a program ends. -/
def Stable (x : Fueled ε α) : Prop :=
  ∀ m n r, m ≤ n → (x m).run = some r → (x n).run = some r

/-- A sequence ends with the error of its first part, or as the second part does. -/
theorem run_bind_some_iff {x : ExceptT ε Option α} {f : α → ExceptT ε Option β} {r : Except ε β} :
    (x >>= f).run = some r ↔
      (∃ e, x.run = some (.error e) ∧ r = .error e) ∨
        ∃ a, x.run = some (.ok a) ∧ (f a).run = some r := by
  rw [ExceptT.run_bind]
  cases x.run with
  | none => simp
  | some y =>
    cases y with
    | error e => simp [eq_comm]
    | ok a => simp

/-- A stable computation gives one result only. -/
theorem Gives.unique {x : Fueled ε α} {a b : α} (hx : Stable x) (ha : Gives x a)
    (hb : Gives x b) : a = b := by
  obtain ⟨m, hm⟩ := ha
  obtain ⟨n, hn⟩ := hb
  rcases Nat.le_total m n with hle | hle
  · exact Except.ok.inj (Option.some.inj ((hx m n _ hle hm).symm.trans hn))
  · exact Except.ok.inj (Option.some.inj (hm.symm.trans (hx n m _ hle hn)))

/-- What does not look at the fuel is stable. -/
theorem stable_const (x : ExceptT ε Option α) : Stable fun _ => x := fun _ _ _ _ h => h

/-- A sequence of stable computations is stable. -/
theorem Stable.bind {x : Fueled ε α} {f : α → Fueled ε β} (hx : Stable x)
    (hf : ∀ a, Stable (f a)) : Stable fun fuel => x fuel >>= fun a => f a fuel := by
  intro m n r hle h
  rw [run_bind_some_iff] at h ⊢
  rcases h with ⟨e, hxm, hr⟩ | ⟨a, hxm, hfm⟩
  · exact .inl ⟨e, hx m n _ hle hxm, hr⟩
  · exact .inr ⟨a, hx m n _ hle hxm, hf a m n r hle hfm⟩

/-- A loop is stable. -/
theorem stable_run {σ : Type} (turn : σ → Except ε α ⊕ σ) (s : σ) :
    Stable fun fuel => ExceptT.mk (Loop.run turn fuel s) :=
  fun _ _ _ hle h => Loop.run_mono hle h

/-- A computation without a loop gives its value. -/
theorem gives_lift_iff {x : Except ε α} {a : α} : Gives (fun _ => lift x) a ↔ x = .ok a := by
  constructor
  · rintro ⟨fuel, h⟩
    exact Option.some.inj h
  · rintro rfl
    exact ⟨0, rfl⟩

/-- A value gives itself. -/
theorem gives_pure_iff {a b : α} : Gives (fun _ => (pure a : ExceptT ε Option α)) b ↔ a = b := by
  constructor
  · rintro ⟨fuel, h⟩
    exact Except.ok.inj (Option.some.inj h)
  · rintro rfl
    exact ⟨0, rfl⟩

/-- A program goes on with what its first part gives. -/
theorem gives_bind_iff {x : Fueled ε α} {f : α → Fueled ε β} {b : β} (hx : Stable x)
    (hf : ∀ a, Stable (f a)) :
    Gives (fun fuel => x fuel >>= fun a => f a fuel) b ↔ ∃ a, Gives x a ∧ Gives (f a) b := by
  constructor
  · rintro ⟨fuel, h⟩
    rcases run_bind_some_iff.mp h with ⟨e, -, he⟩ | ⟨a, ha, hb⟩
    · cases he
    · exact ⟨a, ⟨fuel, ha⟩, fuel, hb⟩
  · rintro ⟨a, ⟨m, hm⟩, n, hn⟩
    refine ⟨max m n, run_bind_some_iff.mpr (.inr ⟨a, ?_, ?_⟩)⟩
    · exact hx _ _ _ (Nat.le_max_left m n) hm
    · exact hf a _ _ _ (Nat.le_max_right m n) hn

end Fueled

end HandsomeMod.ForStd
