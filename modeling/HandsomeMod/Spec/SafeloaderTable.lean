import HandsomeMod.Native.Safeloader

/-!
# Safeloader partition tables are read as they were printed

Each printed line is one pass of the outer loop that reads tables. Names must not hold the
characters that end a token or a line.
-/

namespace HandsomeMod.Native.Safeloader

open ForStd

/-- A name that is read back: no end of a string, space or newline, and at most 31 characters. -/
structure GoodName (name : List UInt8) : Prop where
  ne_zero : ∀ b ∈ name, b ≠ 0
  ne_space : ∀ b ∈ name, b ≠ 0x20
  ne_newline : ∀ b ∈ name, b ≠ 0x0a
  length_le : name.length ≤ 31

/-- A header and a tail of a line that does not hold further spaces or newlines. -/
structure GoodFormat (hdr tail : List UInt8) : Prop where
  pos : 0 < hdr.length
  hdr_ne_zero : ∀ b ∈ hdr, b ≠ 0
  hdr_ne_space : ∀ b ∈ hdr, b ≠ 0x20
  hdr_ne_newline : ∀ b ∈ hdr, b ≠ 0x0a
  tail_ne_newline : ∀ b ∈ tail, b ≠ 0x0a
  hexVal_tail : ∀ c ∈ (tail ++ [0x0a]).head?, hexVal c = none

/-- The header of a line in the image table. -/
private theorem fwuphdr_bytes : fwuphdr = [0x66, 0x77, 0x75, 0x70, 0x2d, 0x70, 0x74, 0x6e] := by
  decide

/-- The header of a line in the partition table. -/
private theorem flashhdr_bytes :
    flashhdr = [0x70, 0x61, 0x72, 0x74, 0x69, 0x74, 0x69, 0x6f, 0x6e] := by
  decide

/-- The lines of the image table can be read. -/
theorem fwup_format : GoodFormat fwuphdr (ascii "\t\x0d") := by
  have htail : ascii "\t\x0d" = [0x09, 0x0d] := by decide
  rw [fwuphdr_bytes, htail]
  constructor <;> (set_option maxRecDepth 4000 in decide)

/-- The lines of the partition table can be read. -/
theorem flash_format : GoodFormat flashhdr [] := by
  rw [flashhdr_bytes]
  constructor <;> (set_option maxRecDepth 4000 in decide)

/-! ### One line -/

/-- A number as it is printed. -/
def number (v : UInt32) : List UInt8 := ascii "0x" ++ hexText 5 v

/-- A number has digits and an `x` only. -/
private theorem number_ne {v : UInt32} {b c : UInt8} (hb : b ∈ number v) (hc : hexVal c = none)
    (hx : c ≠ 0x78) : b ≠ c := by
  rcases List.mem_append.mp hb with hb | hb
  · have hprefix : ∀ b ∈ ascii "0x", b = 0x30 ∨ b = 0x78 := by
      set_option maxRecDepth 4000 in decide
    rcases hprefix b hb with rfl | rfl
    · intro heq
      rw [← heq] at hc
      cases hc
    · exact hx.symm
  · exact ne_of_mem_hexText (by decide) hb hc

/-- The tokens of a line without its newline. -/
def tokens (hdr tail name : List UInt8) (base size : UInt32) : List UInt8 :=
  hdr ++ 0x20 :: (name ++ 0x20 :: (ascii "base" ++ 0x20 :: (number base ++ 0x20 ::
    (ascii "size" ++ 0x20 :: (number size ++ tail)))))

/-- A line is its tokens and a line feed. -/
theorem formatEntry_eq (hdr tail name : List UInt8) (base size : UInt32) :
    formatEntry hdr (tail ++ [0x0a]) name base size =
      tokens hdr tail name base size ++ [0x0a] := by
  have hspace : ascii " " = [0x20] := rfl
  have hbase : ascii " base 0x" = 0x20 :: (ascii "base" ++ 0x20 :: ascii "0x") := rfl
  have hsize : ascii " size 0x" = 0x20 :: (ascii "size" ++ 0x20 :: ascii "0x") := rfl
  simp only [formatEntry, tokens, number, hspace, hbase, hsize, List.append_assoc,
    List.cons_append, List.nil_append]

/-- What a pass of the inner loop finds at a token. -/
private theorem element {tok : List UInt8} (rest : List UInt8) (left : Nat)
    (htok : ∀ b ∈ tok, b ≠ 0x20) :
    memchr (tok ++ 0x20 :: rest) 0x20 (tok.length + 1 + left) = some tok.length ∧
      (tok ++ 0x20 :: rest).drop (tok.length + 1) = rest ∧
      tok.length + 1 + left - (tok.length + 1) = left := by
  refine ⟨memchr_append rest htok (by omega), ?_, by omega⟩
  rw [List.append_cons]
  exact List.drop_left' (by simp)

section

variable {maxEntries : Nat} {tok rest name : List UInt8} {left base : Nat}
  {entries : List FlashPartitionEntry}

/-- A token that is passed over. -/
private theorem scanElement_skip {pass : Nat} (hpass : pass = 4 ∨ pass = 2)
    (htok : ∀ b ∈ tok, b ≠ 0x20) :
    scanElement maxEntries pass ⟨tok ++ 0x20 :: rest, tok.length + 1 + left, name, base, entries⟩ =
      some ⟨rest, left, name, base, entries⟩ := by
  obtain ⟨hchr, hdrop, hleft⟩ := element rest left htok
  rcases hpass with rfl | rfl <;> simp only [scanElement, hchr, hdrop, hleft]

/-- The token for the name. -/
private theorem scanElement_name (h : GoodName tok) :
    scanElement maxEntries 3 ⟨tok ++ 0x20 :: rest, tok.length + 1 + left, name, base, entries⟩ =
      some ⟨rest, left, tok, base, entries⟩ := by
  obtain ⟨hchr, hdrop, hleft⟩ := element rest left h.ne_space
  have hname : ((tok ++ 0x20 :: rest).take (min tok.length 31)).takeWhile (· ≠ 0) = tok := by
    rw [Nat.min_eq_left h.length_le, List.take_left' rfl, List.takeWhile_eq_self_iff]
    intro b hb
    simpa using h.ne_zero b hb
  simp only [scanElement, hchr, hdrop, hleft, hname]

/-- The token for the base. -/
private theorem scanElement_base (htok : ∀ b ∈ tok, b ≠ 0x20) :
    scanElement maxEntries 1 ⟨tok ++ 0x20 :: rest, tok.length + 1 + left, name, base, entries⟩ =
      some ⟨rest, left, name, strtoul16 (tok ++ 0x20 :: rest), entries⟩ := by
  obtain ⟨hchr, hdrop, hleft⟩ := element rest left htok
  simp only [scanElement, hchr, hdrop, hleft]

/-- The token for the size ends the entry. -/
private theorem scanElement_size (htok : ∀ b ∈ tok, b ≠ 0x20) (hroom : entries.length < maxEntries)
    :
    scanElement maxEntries 0 ⟨tok ++ 0x20 :: rest, tok.length + 1 + left, name, base, entries⟩ =
      some ⟨rest.drop (left + 1), 0, name, base,
        entries ++ [⟨name, UInt32.ofNat base, UInt32.ofNat (strtoul16 rest)⟩]⟩ := by
  obtain ⟨hchr, hdrop, hleft⟩ := element rest left htok
  simp only [scanElement, hchr, hdrop, hleft, addFlashPartition]
  rw [if_neg (by omega), Option.map_some]

/-- The passes over the tokens of a line. -/
private theorem scanElements_succ {pass n : Nat} {ptr : List UInt8} {s' : Scan}
    (h : scanElement maxEntries pass ⟨ptr, n + 1 + left, name, base, entries⟩ = some s') :
    scanElements maxEntries (pass + 1) ⟨ptr, n + 1 + left, name, base, entries⟩ =
      scanElements maxEntries pass s' := by
  rw [scanElements, if_neg (by show ¬ n + 1 + left = 0; omega), h, Option.bind_some]

end

/-- The inner loop reads a printed line. -/
private theorem scanElements_line {maxEntries : Nat} {hdr tail name : List UInt8}
    (base size : UInt32)
    (rest : List UInt8) {entries : List FlashPartitionEntry} (hformat : GoodFormat hdr tail)
    (hname : GoodName name) (hroom : entries.length < maxEntries) :
    scanElements maxEntries 5 ⟨tokens hdr tail name base size ++ 0x0a :: rest,
        (tokens hdr tail name base size).length, [], 0, entries⟩ =
      some ⟨rest, 0, name, base.toNat, entries ++ [⟨name, base, size⟩]⟩ := by
  -- a line is six tokens with one space in between
  have hlen : (tokens hdr tail name base size).length = hdr.length + 1 + (name.length + 1 +
      ((ascii "base").length + 1 + ((number base).length + 1 + ((ascii "size").length + 1 +
        (number size ++ tail).length)))) := by
    simp only [tokens, List.length_append, List.length_cons]
    omega
  have htext : tokens hdr tail name base size ++ 0x0a :: rest =
      hdr ++ 0x20 :: (name ++ 0x20 :: (ascii "base" ++ 0x20 :: (number base ++ 0x20 ::
        (ascii "size" ++ 0x20 :: (number size ++ (tail ++ 0x0a :: rest)))))) := by
    simp only [tokens, List.append_assoc, List.cons_append]
  have hbase : ∀ b ∈ ascii "base", b ≠ 0x20 := by set_option maxRecDepth 4000 in decide
  have hsize : ∀ b ∈ ascii "size", b ≠ 0x20 := by set_option maxRecDepth 4000 in decide
  have hnumber : ∀ b ∈ number base, b ≠ 0x20 := fun b hb => number_ne hb (by decide) (by decide)
  -- The numbers end at a space and at the tail of the line.
  have hread : ∀ more, strtoul16 (number base ++ 0x20 :: more) = base.toNat := by
    intro more
    rw [number, List.append_assoc]
    exact strtoul16_hexText base (by decide) (by decide) fun c hc => by
      obtain rfl : 0x20 = c := Option.some.inj hc
      rfl
  have hread' : strtoul16 (number size ++ (tail ++ 0x0a :: rest)) = size.toNat := by
    rw [number, List.append_assoc]
    apply strtoul16_hexText size (by decide) (by decide)
    intro c hc
    apply hformat.hexVal_tail c
    cases tail with
    | nil => exact hc
    | cons b tail => exact hc
  -- the rest begins behind the newline
  have hdrop : (number size ++ (tail ++ 0x0a :: rest)).drop ((number size ++ tail).length + 1)
      = rest := by
    rw [← List.append_assoc, List.append_cons]
    apply List.drop_left'
    simp only [List.length_append, List.length_cons, List.length_nil]
  rw [htext, hlen, scanElements_succ (scanElement_skip (Or.inl rfl) hformat.hdr_ne_space),
    scanElements_succ (scanElement_name hname),
    scanElements_succ (scanElement_skip (Or.inr rfl) hbase),
    scanElements_succ (scanElement_base hnumber),
    scanElements_succ (scanElement_size hsize hroom), scanElements, hread, hread', hdrop,
    UInt32.ofNat_toNat, UInt32.ofNat_toNat]

/-! ### A table -/

/-- A line has one line feed. -/
private theorem tokens_ne_newline {hdr tail name : List UInt8} (base size : UInt32)
    (hformat : GoodFormat hdr tail) (hname : GoodName name) :
    ∀ b ∈ tokens hdr tail name base size, b ≠ 0x0a := by
  have hbase : ∀ b ∈ ascii "base", b ≠ 0x0a := by set_option maxRecDepth 4000 in decide
  have hsize : ∀ b ∈ ascii "size", b ≠ 0x0a := by set_option maxRecDepth 4000 in decide
  have hspace : (0x20 : UInt8) ≠ 0x0a := by decide
  intro b hb
  simp only [tokens, List.mem_append, List.mem_cons] at hb
  -- each word and each space of the line
  rcases hb with h | rfl | h | rfl | h | rfl | h | rfl | h | rfl | h | h
  · exact hformat.hdr_ne_newline b h
  · exact hspace
  · exact hname.ne_newline b h
  · exact hspace
  · exact hbase b h
  · exact hspace
  · exact number_ne h (by decide) (by decide)
  · exact hspace
  · exact hsize b h
  · exact hspace
  · exact number_ne h (by decide) (by decide)
  · exact hformat.tail_ne_newline b h

/-- The outer loop reads a printed line. -/
private theorem readLoop_line {maxEntries fuel : Nat} {hdr tail name : List UInt8}
    (base size : UInt32)
    (rest : List UInt8) {entries : List FlashPartitionEntry} (hformat : GoodFormat hdr tail)
    (hname : GoodName name) (hroom : entries.length < maxEntries) :
    readLoop hdr maxEntries (fuel + 1)
        (formatEntry hdr (tail ++ [0x0a]) name base size ++ rest) entries =
      readLoop hdr maxEntries fuel rest (entries ++ [⟨name, base, size⟩]) := by
  have htext : formatEntry hdr (tail ++ [0x0a]) name base size ++ rest =
      tokens hdr tail name base size ++ 0x0a :: rest := by
    rw [formatEntry_eq, List.append_assoc]
    rfl
  have hhdr : hdr.length < (tokens hdr tail name base size ++ 0x0a :: rest).length ∧
      (tokens hdr tail name base size ++ 0x0a :: rest).take hdr.length = hdr := by
    rw [tokens]
    simp only [List.append_assoc, List.length_append, List.length_cons]
    exact ⟨by omega, List.take_left' rfl⟩
  -- the newline of the line is its first
  have hend : memchr (tokens hdr tail name base size ++ 0x0a :: rest) 0x0a
      (tokens hdr tail name base size ++ 0x0a :: rest).length =
        some (tokens hdr tail name base size).length := by
    apply memchr_append rest (tokens_ne_newline base size hformat hname)
    rw [List.length_append, List.length_cons]
    omega
  rw [htext, readLoop, if_pos hhdr, hend]
  simp only [scanElements_line base size rest hformat hname hroom]

/-- The text of a table. -/
def tableText (hdr tail : List UInt8) (l : List FlashPartitionEntry) : List UInt8 :=
  l.flatMap fun e => formatEntry hdr (tail ++ [0x0a]) e.name e.base e.size

private theorem tableText_cons (hdr tail : List UInt8) (e : FlashPartitionEntry)
    (l : List FlashPartitionEntry) : tableText hdr tail (e :: l) =
      formatEntry hdr (tail ++ [0x0a]) e.name e.base e.size ++ tableText hdr tail l := rfl

/-- A table that ends with a zero byte is read back. -/
private theorem readLoop_table {maxEntries fuel : Nat} {hdr tail : List UInt8}
    (hformat : GoodFormat hdr tail) {l entries : List FlashPartitionEntry} (rest : List UInt8)
    (hnames : ∀ e ∈ l, GoodName e.name) (hroom : entries.length + l.length ≤ maxEntries)
    (hfuel : l.length < fuel) :
    readLoop hdr maxEntries fuel (tableText hdr tail l ++ 0 :: rest) entries =
      some (entries ++ l) := by
  induction l generalizing entries fuel with
  | nil =>
    obtain ⟨fuel, rfl⟩ := Nat.exists_eq_succ_of_ne_zero (Nat.pos_iff_ne_zero.mp hfuel)
    -- the zero behind the table is no header, which ends the loop
    obtain ⟨b, hdr, rfl⟩ := List.exists_cons_of_length_pos hformat.pos
    have hb := hformat.hdr_ne_zero b List.mem_cons_self
    rw [tableText, List.flatMap_nil, List.nil_append, readLoop, if_neg, List.append_nil]
    intro h
    rw [List.length_cons, List.take_succ_cons] at h
    exact hb (List.head_eq_of_cons_eq h.2).symm
  | cons e l ih =>
    obtain ⟨fuel, rfl⟩ := Nat.exists_eq_succ_of_ne_zero (Nat.ne_zero_of_lt hfuel)
    rw [List.length_cons] at hroom hfuel
    rw [tableText_cons, List.append_assoc, readLoop_line _ _ _ hformat
      (hnames e List.mem_cons_self) (by omega)]
    have hrest : readLoop hdr maxEntries fuel (tableText hdr tail l ++ 0 :: rest) (entries ++ [e])
        = some (entries ++ [e] ++ l) := by
      apply ih (fun e' he' => hnames e' (List.mem_cons_of_mem _ he')) _ (by omega)
      rw [List.length_append, List.length_singleton]
      omega
    rw [List.append_assoc] at hrest
    exact hrest

/-- A line is not empty. -/
private theorem length_le_tableText (hdr tail : List UInt8) (l : List FlashPartitionEntry) :
    l.length ≤ (tableText hdr tail l).length := by
  induction l with
  | nil => exact Nat.le_refl 0
  | cons e l ih =>
    rw [tableText_cons, List.length_append, List.length_cons, formatEntry_eq,
      List.length_append, List.length_singleton]
    omega

/-- A table begins with the header of its lines. -/
theorem take_tableText {hdr tail : List UInt8} {l : List FlashPartitionEntry} (rest : List UInt8)
    (hl : l ≠ []) : (tableText hdr tail l ++ rest).take hdr.length = hdr := by
  obtain ⟨e, l, rfl⟩ := List.exists_cons_of_ne_nil hl
  rw [tableText_cons, formatEntry]
  simp only [List.append_assoc]
  exact List.take_left' rfl

/-- The buffer that is filled from a table of less than 2048 bytes. -/
private theorem buffer_eq {m : Mem} {offset : Nat} {text : List UInt8}
    (h : bytesAt m offset (text.length + 1) = text ++ [0]) (hlen : text.length < 2048) :
    ∃ rest, (bytesAt m offset 2048).set 2047 0 = text ++ 0 :: rest := by
  have hsplit : bytesAt m offset 2048 = text ++ ([0] ++
      bytesAt m (offset + (text.length + 1)) (2048 - (text.length + 1))) := by
    rw [← List.append_assoc, ← h, ← bytesAt_add, show text.length + 1 +
      (2048 - (text.length + 1)) = 2048 by omega]
  rw [hsplit, List.set_append_right _ _ (by omega)]
  refine ⟨((bytesAt m (offset + (text.length + 1)) (2048 - (text.length + 1))).set
    (2047 - text.length - 1) 0), ?_⟩
  -- The last byte of the buffer is behind the end of the text, or is that end.
  cases hk : 2047 - text.length with
  | zero =>
    rw [show 2048 - (text.length + 1) = 0 by omega]
    rfl
  | succ k => rfl

/-- A table in a file is read back: what `read_partition_table` returns for `type`, whose header is
`hdr`. -/
theorem readPartitionTable_eq {file : File} {offset maxEntries type : Nat} {hdr tail : List UInt8}
    {l : List FlashPartitionEntry} (hformat : GoodFormat hdr tail)
    (htype : (if type = 0 then some fwuphdr else if type = 1 then some flashhdr else none) =
      some hdr)
    (hsize : offset + 2048 ≤ file.size) (hl : l ≠ []) (hnames : ∀ e ∈ l, GoodName e.name)
    (hroom : l.length ≤ maxEntries) (hlen : (tableText hdr tail l).length < 2048)
    (htext : bytesAt file.mem offset ((tableText hdr tail l).length + 1) =
      tableText hdr tail l ++ [0]) :
    readPartitionTable file offset maxEntries type = some (0, l) := by
  obtain ⟨rest, hbuf⟩ := buffer_eq htext hlen
  have hle := length_le_tableText hdr tail l
  have hread : readLoop hdr maxEntries 2048 (tableText hdr tail l ++ 0 :: rest) [] = some l :=
    readLoop_table hformat rest hnames (by rwa [List.length_nil, Nat.zero_add])
      (Nat.lt_of_le_of_lt hle hlen)
  simp only [readPartitionTable, htype, hbuf]
  rw [if_neg (by omega), if_neg (not_not.mpr (take_tableText _ hl)), hread]
  rfl

end HandsomeMod.Native.Safeloader
