import HandsomeMod.ForStd.Mem

/-!
# Printing into a buffer piece by piece

The idiom `len += snprintf(buf + len, sizeof(buf) - len, ..)`. A piece that does not fit is cut off
and counted in full, so that the next size is negative or a huge `size_t`.
-/

namespace HandsomeMod.ForStd

/-- The `snprintf` of the kernel into `m` from `pos` on: it rejects a size above INT_MAX. -/
def snprintf (m : Mem) (pos size : Nat) (text : List UInt8) : Mem × Nat :=
  if size ≥ 2 ^ 31 then (m, 0)
  else if size = 0 then (m, text.length)
  else (writeBytes m pos (text.take (size - 1) ++ [0]), text.length)

/-- A buffer of `size` bytes with the length that was counted so far -/
structure Out (size : Nat) where
  mem : Mem
  len : Nat

namespace Out

variable {size : Nat}

/-- `len += snprintf(buf + len, size - len, ..)`, with a `size_t` of 32 bits -/
def print (o : Out size) (text : List UInt8) : Out size :=
  let r := snprintf o.mem o.len (((size : Int) - o.len) % 2 ^ 32).toNat text
  { mem := r.1, len := o.len + r.2 }

/-- Many pieces -/
def prints (o : Out size) (texts : List (List UInt8)) : Out size := texts.foldl print o

/-- The string in the buffer from its start on -/
def Holds (o : Out size) (text : List UInt8) : Prop :=
  bytesAt o.mem 0 text.length = text ∧ o.mem text.length = 0

theorem prints_cons (o : Out size) (text : List UInt8) (texts : List (List UInt8)) :
    o.prints (text :: texts) = (o.print text).prints texts := rfl

/-- Texts that are printed one after the other. -/
theorem prints_append (o : Out size) (texts texts' : List (List UInt8)) :
    o.prints (texts ++ texts') = (o.prints texts).prints texts' := List.foldl_append

/-- The length never goes down. -/
theorem len_le_print (o : Out size) (text : List UInt8) : o.len ≤ (o.print text).len :=
  Nat.le_add_right _ _

/-- The counted length does not shrink. -/
theorem len_le_prints (o : Out size) (texts : List (List UInt8)) :
    o.len ≤ (o.prints texts).len := by
  induction texts generalizing o with
  | nil => exact Nat.le_refl _
  | cons text texts ih => exact Nat.le_trans (len_le_print o text) (ih _)

section Fits

variable (hsize : size < 2 ^ 31)

include hsize

/-- The room that is passed to `snprintf` while the length is inside of the buffer. -/
theorem rest_of_le {o : Out size} (h : o.len ≤ size) :
    (((size : Int) - o.len) % 2 ^ 32).toNat = size - o.len := by
  rw [Int.emod_eq_of_lt (by omega) (by omega)]
  omega

/-- Up to the end of the buffer a piece is counted in full. -/
theorem print_len {o : Out size} (text : List UInt8) (h : o.len ≤ size) :
    (o.print text).len = o.len + text.length := by
  rw [print, rest_of_le hsize h]
  simp only [snprintf]
  rw [if_neg (by omega)]
  split <;> rfl

/-- A text that fits is stored whole. -/
theorem print_of_fits {o : Out size} {text : List UInt8} (h : o.len + text.length < size) :
    o.print text = { mem := writeBytes o.mem o.len (text ++ [0]), len := o.len + text.length } := by
  rw [print, rest_of_le hsize (by omega)]
  simp only [snprintf]
  rw [if_neg (by omega), if_neg (by omega), List.take_of_length_le (by omega)]

/-- The length stays in the buffer exactly if everything that is printed does. -/
theorem prints_len_le_iff {o : Out size} {texts : List (List UInt8)} (h : o.len ≤ size) :
    (o.prints texts).len ≤ size ↔ o.len + texts.flatten.length ≤ size := by
  induction texts generalizing o with
  | nil => exact Iff.rfl
  | cons text texts ih =>
    have hlen := print_len hsize text h
    rw [prints_cons, List.flatten_cons, List.length_append, ← Nat.add_assoc, ← hlen]
    by_cases hle : (o.print text).len ≤ size
    · exact ih hle
    · -- Once it is too long, it stays so.
      have hmono := len_le_prints (o.print text) texts
      exact iff_of_false (by omega) (by omega)

/-- The first piece -/
theorem holds_print_start {o : Out size} {text : List UInt8} (hlen : o.len = 0)
    (hfits : text.length < size) :
    (o.print text).Holds text ∧ (o.print text).len = text.length := by
  have hprint := print_of_fits hsize (show o.len + text.length < size by omega)
  rw [hlen, Nat.zero_add] at hprint
  rw [hprint]
  refine ⟨⟨?_, ?_⟩, rfl⟩
  · have hall := bytesAt_writeBytes_self o.mem 0 (text ++ [0])
    have htake := bytesAt_take hall (show text.length ≤ (text ++ [0]).length by simp)
    rwa [List.take_left] at htake
  -- the terminator is the last byte written
  · have hlast := writeBytes_add o.mem 0 (show text.length < (text ++ [0]).length by simp)
    rw [Nat.zero_add] at hlast
    change writeBytes o.mem 0 (text ++ [0]) text.length = 0
    rw [hlast]
    simp

/-- Another piece behind the string in the buffer -/
theorem Holds.print {o : Out size} {text text' : List UInt8} (h : o.Holds text)
    (hlen : o.len = text.length) (hfits : o.len + text'.length < size) :
    (o.print text').Holds (text ++ text') ∧ (o.print text').len = (text ++ text').length := by
  have hprint := print_of_fits hsize hfits
  refine ⟨?_, by rw [hprint, List.length_append, hlen]⟩
  rw [hprint, Holds, List.length_append, bytesAt_add]
  refine ⟨?_, ?_⟩
  -- the old text is in front of what is written, the new text is what is written
  · have hbefore : bytesAt (writeBytes o.mem o.len (text' ++ [0])) 0 text.length = text := by
      rw [bytesAt_writeBytes_before _ _ (by omega)]
      exact h.1
    have hbehind : bytesAt (writeBytes o.mem o.len (text' ++ [0])) o.len text'.length = text' := by
      have hall := bytesAt_writeBytes_self o.mem o.len (text' ++ [0])
      have htake := bytesAt_take hall (show text'.length ≤ (text' ++ [0]).length by simp)
      rwa [List.take_left] at htake
    rw [hbefore, Nat.zero_add, ← hlen, hbehind]
  -- the zero moves behind both
  · change writeBytes o.mem o.len (text' ++ [0]) (text.length + text'.length) = 0
    rw [← hlen, writeBytes_add _ _ (by simp)]
    simp

/-- All pieces that fit are in the buffer one behind the other. -/
theorem Holds.prints {o : Out size} {text : List UInt8} {texts : List (List UInt8)}
    (h : o.Holds text) (hlen : o.len = text.length)
    (hfits : o.len + texts.flatten.length < size) :
    (o.prints texts).Holds (text ++ texts.flatten) ∧
      (o.prints texts).len = (text ++ texts.flatten).length := by
  induction texts generalizing o text with
  | nil =>
    rw [List.flatten_nil, List.append_nil]
    exact ⟨h, hlen⟩
  | cons text' texts ih =>
    rw [List.flatten_cons, List.length_append] at hfits
    obtain ⟨hholds, hlen'⟩ := Holds.print hsize h hlen (show o.len + text'.length < size by omega)
    rw [prints_cons, List.flatten_cons, ← List.append_assoc]
    refine ih hholds hlen' ?_
    rw [hlen', List.length_append]
    omega

end Fits

end Out

end HandsomeMod.ForStd
