import HandsomeMod.ForStd.Mem

/-!
# One's complement sums

The sum of 16-bit words in one's complement arithmetic, in which zero is both all zeros and all
ones: a sum is all zeros only if every word is. Bytes are paired to words most significant byte
first, and a zero is added to an odd number of them.
-/

namespace HandsomeMod.ForStd

/-- A sum, with every carry added at the other end. -/
def fold16 (n : Nat) : Nat := if n = 0 then 0 else (n - 1) % 65535 + 1

/-- The words of a list of bytes. -/
def words : List UInt8 → List Nat
  | a :: b :: l => (a.toNat * 256 + b.toNat) :: words l
  | [a] => [a.toNat * 256]
  | [] => []

/-- The sum of the words of a list of bytes, without carries. -/
def wordSum (l : List UInt8) : Nat := (words l).sum

/-- The one's complement sum of a list of bytes. -/
def onesSum (l : List UInt8) : Nat := fold16 (wordSum l)

/-- A sum of 16 bits has no carry. -/
theorem fold16_of_lt {n : Nat} (h : n < 65536) : fold16 n = n := by
  rw [fold16]
  split
  · omega
  · omega

/-- A folded sum has 16 bits. -/
theorem fold16_lt (n : Nat) : fold16 n < 65536 := by
  rw [fold16]
  split
  · omega
  · omega

/-- Folding gives zero for zero only. -/
theorem fold16_eq_zero_iff {n : Nat} : fold16 n = 0 ↔ n = 0 := by
  by_cases hn : n = 0
  · rw [hn]
    exact ⟨fun _ => rfl, fun _ => rfl⟩
  · rw [fold16, if_neg hn]
    omega

/-- The carry of a word is added at the other end. -/
theorem fold16_carry (n : Nat) : fold16 (n / 65536 + n % 65536) = fold16 n := by
  by_cases hn : n = 0
  · rw [hn]
  · rw [fold16, fold16, if_neg hn, if_neg (by omega)]
    omega

/-- Partial sums may be folded. -/
theorem fold16_add_fold16 (m n : Nat) : fold16 (fold16 m + n) = fold16 (m + n) := by
  by_cases hm : m = 0
  · rw [hm]
    rfl
  · have hfold : fold16 m = (m - 1) % 65535 + 1 := if_neg hm
    rw [hfold, fold16, fold16, if_neg (by omega), if_neg (by omega)]
    omega

/-- A sum and its complement. -/
theorem fold16_add_complement (n : Nat) : fold16 (n + (65535 - fold16 n)) = 65535 := by
  have hlt := fold16_lt n
  rw [← fold16_add_fold16, Nat.add_sub_cancel' (by omega)]
  rfl

/-- Words do not cross a gap between two bytes at an even position. -/
theorem wordSum_append {l : List UInt8} (l' : List UInt8) (h : l.length % 2 = 0) :
    wordSum (l ++ l') = wordSum l + wordSum l' := by
  induction l using words.induct with
  -- the front part is a whole number of words
  | case1 a b l ih =>
    have hlen : l.length % 2 = 0 := by
      rw [List.length_cons, List.length_cons] at h
      omega
    have hcons : ∀ l : List UInt8, wordSum (a :: b :: l) = a.toNat * 256 + b.toNat + wordSum l := by
      intro l
      rw [wordSum, words, List.sum_cons, wordSum]
    rw [List.cons_append, List.cons_append, hcons, hcons, ih hlen, ← Nat.add_assoc]
  | case2 a => exact absurd h (by simp)
  | case3 =>
    have hnil : wordSum [] = 0 := rfl
    rw [List.nil_append, hnil, Nat.zero_add]

theorem wordSum_pair (a b : UInt8) : wordSum [a, b] = a.toNat * 256 + b.toNat := by
  simp [wordSum, words]

end HandsomeMod.ForStd
