import HandsomeMod.ForStd.CText

/-!
# Decimal numbers in C

The formats `%u` and `%d` of `printf`, and `strtoul` with base 10.
-/

namespace HandsomeMod.ForStd

/-- `isdigit` -/
def isDigit (c : UInt8) : Bool := 0x30 ≤ c && c ≤ 0x39

/-- The number that digits stand for. -/
def decimal (ds : List UInt8) : Nat := ds.foldl (fun v c => 10 * v + (c.toNat - 0x30)) 0

/-- `%u` -/
def decText (n : Nat) : List UInt8 :=
  if n = 0 then [0x30] else (Nat.digits 10 n).reverse.map fun d => UInt8.ofNat (0x30 + d)

/-- `%d` -/
def intText (i : Int) : List UInt8 := if i < 0 then 0x2d :: decText i.natAbs else decText i.natAbs

/-- `strtoul(s, &end, 10)` with an `unsigned long` of `w` bits: the value, and what `end` points
    to. -/
def strtoul10 (w : Nat) (s : List UInt8) : Nat × List UInt8 :=
  let r := skipSign (s.dropWhile isSpace)
  let ds := r.2.takeWhile isDigit
  if ds = [] then (0, s)
  else
    let v := decimal ds
    (if 2 ^ w ≤ v then 2 ^ w - 1 else if r.1 then (2 ^ w - v) % 2 ^ w else v,
      r.2.drop ds.length)

/-- The digits by their codes. -/
theorem isDigit_iff {c : UInt8} : isDigit c = true ↔ 0x30 ≤ c.toNat ∧ c.toNat ≤ 0x39 := by
  rw [isDigit, Bool.and_eq_true, decide_eq_true_eq, decide_eq_true_eq, UInt8.le_iff_toNat_le,
    UInt8.le_iff_toNat_le]
  exact Iff.rfl

/-- A digit is neither a space nor a sign. -/
theorem isSpace_of_isDigit {c : UInt8} (h : isDigit c = true) : isSpace c = false := by
  obtain ⟨hlo, hhi⟩ := isDigit_iff.mp h
  rw [isSpace, Bool.or_eq_false_iff]
  constructor
  · rw [beq_eq_false_iff_ne]
    rintro rfl
    exact absurd hlo (by decide)
  · rw [Bool.and_eq_false_iff]
    right
    rw [decide_eq_false_iff_not, UInt8.le_iff_toNat_le]
    show ¬c.toNat ≤ 13
    omega

/-- A character below `0` is no digit. -/
private theorem ne_of_isDigit {c d : UInt8} (h : isDigit c = true) (hd : d.toNat < 0x30) :
    c ≠ d := by
  rintro rfl
  have hlo := (isDigit_iff.mp h).1
  omega

/-- The digits behind a number go on from its value. -/
theorem decimal_append (ds ds' : List UInt8) :
    decimal (ds ++ ds') = ds'.foldl (fun v c => 10 * v + (c.toNat - 0x30)) (decimal ds) :=
  List.foldl_append

/-- The digits that are printed. -/
theorem decText_spec (n : Nat) :
    decText n ≠ [] ∧ (∀ c ∈ decText n, isDigit c = true) ∧ decimal (decText n) = n := by
  by_cases hn : n = 0
  · have htext : decText n = [0x30] := if_pos hn
    rw [htext, hn]
    refine ⟨List.cons_ne_nil _ _, fun c hc => ?_, rfl⟩
    rw [List.mem_singleton.mp hc]
    rfl
  · have hdigit : ∀ d ∈ Nat.digits 10 n, (UInt8.ofNat (0x30 + d)).toNat = 0x30 + d := by
      intro d hd
      have hlt : d < 10 := Nat.digits_lt_base (by decide) hd
      rw [UInt8.toNat_ofNat']
      omega
    -- Printed most significant digit first: `decimal` undoes `ofDigits`, digit by digit.
    have hfold : ∀ ds : List Nat, (∀ d ∈ ds, (UInt8.ofNat (0x30 + d)).toNat = 0x30 + d) →
        decimal (ds.reverse.map fun d => UInt8.ofNat (0x30 + d)) = Nat.ofDigits 10 ds := by
      intro ds hds
      induction ds with
      | nil => rfl
      | cons d ds ih =>
        rw [List.reverse_cons, List.map_append, decimal_append,
          ih fun d' hd' => hds d' (List.mem_cons_of_mem d hd'), Nat.ofDigits_cons]
        show 10 * _ + ((UInt8.ofNat (0x30 + d)).toNat - 0x30) = _
        rw [hds d List.mem_cons_self]
        omega
    rw [decText, if_neg hn]
    refine ⟨?_, ?_, ?_⟩
    -- a positive number has a digit, each is below ten, and their value is the number
    · intro hnil
      rw [List.map_eq_nil_iff, List.reverse_eq_nil_iff] at hnil
      exact Nat.digits_ne_nil_iff_ne_zero.mpr hn hnil
    · intro c hc
      obtain ⟨d, hd, rfl⟩ := List.mem_map.mp hc
      have hmem := List.mem_reverse.mp hd
      have hlt : d < 10 := Nat.digits_lt_base (by decide) hmem
      rw [isDigit_iff, hdigit d hmem]
      omega
    · rw [hfold _ hdigit, Nat.ofDigits_digits]

/-- The first digit is not zero, nor is the number then. -/
theorem decimal_pos {ds : List UInt8} (hds : ∀ c ∈ ds, isDigit c = true) (hhead : ds.head? ≠ some 0x30)
    (hne : ds ≠ []) : 0 < decimal ds := by
  induction ds using List.reverseRecOn with
  | nil => exact absurd rfl hne
  | append_singleton ds c ih =>
    rw [decimal_append]
    show 0 < 10 * decimal ds + (c.toNat - 0x30)
    -- a single digit is not zero itself, of more digits the front part is positive
    by_cases hnil : ds = []
    · subst hnil
      have hc : c ≠ 0x30 := fun h => hhead (by rw [h]; rfl)
      have hlo := (isDigit_iff.mp (hds c (by simp))).1
      have hc' : c.toNat ≠ 0x30 := fun h => hc (UInt8.toNat_inj.mp h)
      omega
    · have hpos : 0 < decimal ds := by
        apply ih (fun c hc => hds c (List.mem_append_left _ hc)) _ hnil
        rwa [← List.head?_append_of_ne_nil _ hnil]
      omega

/-- Digits are determined by their number, if the first one is not zero. -/
theorem eq_of_decimal_eq {ds ds' : List UInt8} (hds : ∀ c ∈ ds, isDigit c = true)
    (hds' : ∀ c ∈ ds', isDigit c = true) (hhead : ds.head? ≠ some 0x30) (hhead' : ds'.head? ≠ some 0x30)
    (h : decimal ds = decimal ds') : ds = ds' := by
  have hinit {ds : List UInt8} {c : UInt8} (hhead : (ds ++ [c]).head? ≠ some 0x30) : ds.head? ≠ some 0x30 := by
    cases ds with
    | nil => simp
    | cons d ds => exact hhead
  induction ds using List.reverseRecOn generalizing ds' with
  | nil =>
    by_contra hne
    have hpos := decimal_pos hds' hhead' (Ne.symm hne)
    rw [← h] at hpos
    exact absurd hpos (Nat.lt_irrefl 0)
  | append_singleton ds c ih =>
    rcases List.eq_nil_or_concat ds' with rfl | ⟨ds', c', rfl⟩
    · have hpos := decimal_pos hds hhead (by simp)
      rw [h] at hpos
      exact absurd hpos (Nat.lt_irrefl 0)
    · rw [List.concat_eq_append] at *
      -- The last digits are the remainders by ten, the others the quotients.
      rw [decimal_append, decimal_append] at h
      replace h : 10 * decimal ds + (c.toNat - 0x30) = 10 * decimal ds' + (c'.toNat - 0x30) := h
      have hc := isDigit_iff.mp (hds c (by simp))
      have hc' := isDigit_iff.mp (hds' c' (by simp))
      have hlast : c = c' := UInt8.toNat_inj.mp (by omega)
      have hrest : ds = ds' := ih (fun c hc => hds c (List.mem_append_left _ hc))
        (fun c hc => hds' c (List.mem_append_left _ hc)) (hinit hhead) (hinit hhead') (by omega)
      rw [hlast, hrest]

/-- Digits that are followed by something else. -/
theorem takeWhile_digits {ds rest : List UInt8} (hds : ∀ c ∈ ds, isDigit c = true)
    (hrest : ∀ c ∈ rest.head?, isDigit c = false) :
    (ds ++ rest).takeWhile isDigit = ds := by
  rw [List.takeWhile_append_of_pos hds]
  cases rest with
  | nil => simp
  | cons c rest => simp [hrest c rfl]

/-- A number is read up to its last digit. -/
theorem strtoul10_digits (w : Nat) {ds rest : List UInt8} (hne : ds ≠ [])
    (hds : ∀ c ∈ ds, isDigit c = true) (hrest : ∀ c ∈ rest.head?, isDigit c = false) :
    strtoul10 w (ds ++ rest) = (min (decimal ds) (2 ^ w - 1), rest) := by
  obtain ⟨d, ds, rfl⟩ := List.exists_cons_of_ne_nil hne
  have hd : isDigit d = true := hds d List.mem_cons_self
  have hspace : (d :: ds ++ rest).dropWhile isSpace = d :: ds ++ rest := by
    rw [List.cons_append, List.dropWhile_cons, isSpace_of_isDigit hd]
    rfl
  -- no space and no sign in front of the digits
  have hsign : skipSign (d :: ds ++ rest) = (false, d :: ds ++ rest) := by
    have hminus : d ≠ 0x2d := ne_of_isDigit hd (by decide)
    have hplus : d ≠ 0x2b := ne_of_isDigit hd (by decide)
    simp [skipSign, hminus, hplus]
  rw [strtoul10, hspace]
  simp only [hsign, takeWhile_digits hds hrest]
  rw [if_neg hne, List.drop_left' rfl]
  congr 1
  have hpos : 0 < 2 ^ w := Nat.two_pow_pos w
  split
  · omega
  · simp only [Bool.false_eq_true, if_false]
    omega

end HandsomeMod.ForStd
