import Mathlib

/-!
# Text in C

Strings as bytes, `memchr`, the hexadecimal formats of `printf` and `strtoul` with base 16.
-/

namespace HandsomeMod.ForStd

/-- The bytes of a string literal. -/
def ascii (s : String) : List UInt8 := s.toUTF8.data.toList

/-- `memchr(s, c, n)`, as an offset into `s`. -/
def memchr (s : List UInt8) (c : UInt8) (n : Nat) : Option Nat := (s.take n).findIdx? (· == c)

/-- The first `c` behind a token. -/
theorem memchr_append {tok : List UInt8} {c : UInt8} (rest : List UInt8) {n : Nat}
    (htok : ∀ b ∈ tok, b ≠ c) (hn : tok.length < n) :
    memchr (tok ++ c :: rest) c n = some tok.length := by
  rw [memchr, List.findIdx?_eq_some_iff_getElem]
  have hlen : tok.length < ((tok ++ c :: rest).take n).length := by
    rw [List.length_take, List.length_append, List.length_cons]
    omega
  refine ⟨hlen, ?_, ?_⟩
  · rw [List.getElem_take, List.getElem_append_right (Nat.le_refl _)]
    simp
  · intro j hj
    rw [List.getElem_take, List.getElem_append_left hj]
    simpa using htok _ (List.getElem_mem hj)

/-- No `c` in a token. -/
theorem memchr_eq_none {tok : List UInt8} {c : UInt8} (rest : List UInt8)
    (htok : ∀ b ∈ tok, b ≠ c) : memchr (tok ++ rest) c tok.length = none := by
  rw [memchr, List.take_left' rfl, List.findIdx?_eq_none_iff]
  intro b hb
  simpa using htok b hb

/-! ### Hexadecimal numbers -/

/-- A digit of `%x`. -/
def hexChar (d : Nat) : UInt8 :=
  if d < 10 then UInt8.ofNat (0x30 + d) else UInt8.ofNat (0x57 + d)

/-- The value of a digit. -/
def hexVal (c : UInt8) : Option Nat :=
  if 0x30 ≤ c ∧ c ≤ 0x39 then some (c.toNat - 0x30)
  else if 0x61 ≤ c ∧ c ≤ 0x66 then some (c.toNat - 0x57)
  else if 0x41 ≤ c ∧ c ≤ 0x46 then some (c.toNat - 0x37)
  else none

/-- The digit that `%x` prints has its value. -/
theorem hexVal_hexChar : ∀ d < 16, hexVal (hexChar d) = some d := by decide

/-- The eight digits of an `unsigned`. -/
def hexDigits (v : UInt32) : List Nat :=
  (List.range 8).map fun i => v.toNat / 16 ^ (7 - i) % 16

/-- The format `%0wx` of an `unsigned`, for a width from 1 to 8. -/
def hexText (w : Nat) (v : UInt32) : List UInt8 :=
  (((hexDigits v).take (8 - w)).dropWhile (· == 0) ++ (hexDigits v).drop (8 - w)).map hexChar

/-- The digits at the start of a text. -/
def spanHex : List UInt8 → List Nat
  | [] => []
  | c :: s =>
    match hexVal c with
    | none => []
    | some d => d :: spanHex s

/-- The number that digits stand for. -/
def ofHex (ds : List Nat) : Nat := ds.foldl (fun v d => 16 * v + d) 0

/-- `isspace` -/
def isSpace (c : UInt8) : Bool := c == 0x20 || (9 ≤ c && c ≤ 13)

/-- A sign, and what is behind it. -/
def skipSign (s : List UInt8) : Bool × List UInt8 :=
  if s.head? = some 0x2d then (true, s.tail)
  else if s.head? = some 0x2b then (false, s.tail)
  else (false, s)

/-- What is behind `0x`, if a digit is. -/
def skip0x : List UInt8 → List UInt8
  | a :: b :: c :: s =>
    if a = 0x30 ∧ (b = 0x78 ∨ b = 0x58) ∧ (hexVal c).isSome then c :: s else a :: b :: c :: s
  | s => s

/-- `strtoul(s, NULL, 16)` -/
def strtoul16 (s : List UInt8) : Nat :=
  let r := skipSign (s.dropWhile isSpace)
  let v := ofHex (spanHex (skip0x r.2))
  if 2 ^ 64 ≤ v then 2 ^ 64 - 1 else if r.1 then (2 ^ 64 - v) % 2 ^ 64 else v

/-- The digits of `%08x` are hexadecimal. -/
theorem hexDigits_lt {v : UInt32} {d : Nat} (h : d ∈ hexDigits v) : d < 16 := by
  obtain ⟨i, -, rfl⟩ := List.mem_map.mp h
  exact Nat.mod_lt _ (by decide)

/-- `%08x` prints eight digits. -/
theorem length_hexDigits (v : UInt32) : (hexDigits v).length = 8 := by
  rw [hexDigits, List.length_map, List.length_range]

/-- The last digits of a number. -/
theorem ofHex_digits (v n : Nat) :
    ofHex ((List.range n).map fun i => v / 16 ^ (n - 1 - i) % 16) = v % 16 ^ n := by
  induction n generalizing v with
  | zero => exact (Nat.mod_one v).symm
  | succ n ih =>
    -- the digits in front of the last one are those of `v / 16`
    have hrest : ∀ i ∈ List.range n, v / 16 ^ (n + 1 - 1 - i) % 16 = v / 16 / 16 ^ (n - 1 - i) % 16 := by
      intro i hi
      have hi := List.mem_range.mp hi
      rw [Nat.div_div_eq_div_mul, ← Nat.pow_succ', show (n - 1 - i).succ = n + 1 - 1 - i by omega]
    have hlast : ∀ ds d, ofHex (ds ++ [d]) = 16 * ofHex ds + d := by
      intro ds d
      rw [ofHex, List.foldl_append, List.foldl_cons, List.foldl_nil, ofHex]
    rw [List.range_succ, List.map_append, List.map_singleton, hlast, List.map_congr_left hrest, ih,
      Nat.pow_succ', Nat.mod_mul, show n + 1 - 1 - n = 0 by omega, Nat.pow_zero, Nat.div_one]
    omega

/-- Reading what `%08x` printed gives the number again. -/
theorem ofHex_hexDigits (v : UInt32) : ofHex (hexDigits v) = v.toNat :=
  (ofHex_digits v.toNat 8).trans (Nat.mod_eq_of_lt v.toNat_lt)

/-- Leading zeros do not count. -/
theorem ofHex_dropWhile (ds ds' : List Nat) :
    ofHex (ds.dropWhile (· == 0) ++ ds') = ofHex (ds ++ ds') := by
  induction ds with
  | nil => rfl
  | cons d ds ih =>
    rw [List.dropWhile_cons]
    split
    · next h0 =>
      have hzero : d = 0 := by simpa using h0
      rw [ih, hzero]
      rfl
    · rfl

/-- The digits of a text that goes on with something else. -/
theorem spanHex_map_append {ds : List Nat} (rest : List UInt8) (hds : ∀ d ∈ ds, d < 16)
    (hrest : ∀ c ∈ rest.head?, hexVal c = none) :
    spanHex (ds.map hexChar ++ rest) = ds := by
  induction ds with
  | nil =>
    cases rest with
    | nil => rfl
    | cons c rest => rw [List.map_nil, List.nil_append, spanHex, hrest c rfl]
  | cons d ds ih =>
    rw [List.map_cons, List.cons_append, spanHex, hexVal_hexChar d (hds d List.mem_cons_self),
      ih fun d' hd' => hds d' (List.mem_cons_of_mem _ hd')]

/-- The digits that are printed. -/
theorem hexText_digits {w : Nat} (v : UInt32) (hw : w ≤ 8) : ∃ ds, hexText w v = ds.map hexChar ∧
    (∀ d ∈ ds, d < 16) ∧ ofHex ds = v.toNat ∧ w ≤ ds.length := by
  refine ⟨_, rfl, ?_, ?_, ?_⟩
  · intro d hd
    rcases List.mem_append.mp hd with hd | hd
    · exact hexDigits_lt (List.mem_of_mem_take ((List.dropWhile_sublist _).subset hd))
    · exact hexDigits_lt (List.mem_of_mem_drop hd)
  · rw [ofHex_dropWhile, List.take_append_drop, ofHex_hexDigits]
  · rw [List.length_append, List.length_drop, length_hexDigits]
    omega

/-- Only digits are printed. -/
theorem ne_of_mem_hexText {w : Nat} {v : UInt32} {b c : UInt8} (hw : w ≤ 8)
    (hb : b ∈ hexText w v) (hc : hexVal c = none) : b ≠ c := by
  obtain ⟨ds, hds, hlt, -⟩ := hexText_digits v hw
  rw [hds] at hb
  obtain ⟨d, hd, rfl⟩ := List.mem_map.mp hb
  intro heq
  rw [← heq, hexVal_hexChar d (hlt d hd)] at hc
  cases hc

/-- A number that was printed behind `0x` is read back. -/
theorem strtoul16_hexText {w : Nat} (v : UInt32) {rest : List UInt8} (hpos : 0 < w) (hw : w ≤ 8)
    (hrest : ∀ c ∈ rest.head?, hexVal c = none) :
    strtoul16 (ascii "0x" ++ (hexText w v ++ rest)) = v.toNat := by
  obtain ⟨ds, hds, hlt, hval, hlen⟩ := hexText_digits v hw
  obtain ⟨d, ds, rfl⟩ := List.exists_cons_of_length_pos (Nat.lt_of_lt_of_le hpos hlen)
  have hread : spanHex ((d :: ds).map hexChar ++ rest) = d :: ds :=
    spanHex_map_append rest hlt hrest
  have hbound := v.toNat_lt
  have hdigit := hexVal_hexChar d (hlt d List.mem_cons_self)
  have htext : ascii "0x" ++ (hexText w v ++ rest)
      = 0x30 :: 0x78 :: hexChar d :: (ds.map hexChar ++ rest) := by
    rw [hds]
    rfl
  have hskip : skip0x (0x30 :: 0x78 :: hexChar d :: (ds.map hexChar ++ rest))
      = (d :: ds).map hexChar ++ rest := by
    rw [skip0x, if_pos ⟨rfl, Or.inl rfl, by rw [hdigit]; rfl⟩]
    rfl
  have hsign : skipSign ((0x30 :: 0x78 :: hexChar d :: (ds.map hexChar ++ rest)).dropWhile isSpace)
      = (false, 0x30 :: 0x78 :: hexChar d :: (ds.map hexChar ++ rest)) := rfl
  -- a word does not saturate
  have hsmall : ¬ 2 ^ 64 ≤ v.toNat := by omega
  rw [htext, strtoul16]
  simp only [hsign, hskip, hread, hval]
  rw [if_neg hsmall, if_neg Bool.false_ne_true]

end HandsomeMod.ForStd
