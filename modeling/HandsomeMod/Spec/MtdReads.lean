import HandsomeMod.Spec.MtdWriteLoop

/-!
# How the reads cut an image

The read results cut what is left of an image into blocks, each filled up to the erase size. A read
that fails ends a block early, or, with nothing in the buffer, it ends the image: then bytes are
left.
-/

namespace HandsomeMod.Native.Mtd

open HandsomeMod.ForStd

variable {es : Nat} {script : List ReadRes} {rest buf left left' : List UInt8}
  {blocks blocks' : List (List UInt8)}

/-- The reads deliver these blocks from a buffer that holds `buf`, and leave the bytes `left`. -/
inductive Delivers (es : Nat) : List ReadRes → List UInt8 → List UInt8 → List (List UInt8) →
    List UInt8 → Prop where
  | stop {script : List ReadRes} {rest buf left : List UInt8} {script' : List ReadRes}
    (hfill : fillBuf es script rest buf = ([], left, script')) :
    Delivers es script rest buf [] left
  | block {script : List ReadRes} {rest buf left piece rest' : List UInt8}
    {script' : List ReadRes} {blocks : List (List UInt8)}
    (hfill : fillBuf es script rest buf = (piece, rest', script')) (hne : piece ≠ [])
    (hmore : Delivers es script' rest' [] blocks left) :
    Delivers es script rest buf (padBlock es piece :: blocks) left

/-- The reads deliver one list of blocks. -/
theorem Delivers.unique (h : Delivers es script rest buf blocks left)
    (h' : Delivers es script rest buf blocks' left') : blocks' = blocks ∧ left' = left := by
  -- the filling of one block decides which of the two rules applied
  induction h generalizing blocks' left' with
  | stop hfill =>
    cases h' with
    | stop hfill' =>
      rw [hfill] at hfill'
      cases hfill'
      exact ⟨rfl, rfl⟩
    | block hfill' hne =>
      rw [hfill] at hfill'
      cases hfill'
      exact absurd rfl hne
  | block hfill hne hmore ih =>
    cases h' with
    | stop hfill' =>
      rw [hfill] at hfill'
      cases hfill'
      exact absurd rfl hne
    | block hfill' hne' hmore' =>
      rw [hfill] at hfill'
      cases hfill'
      obtain ⟨rfl, rfl⟩ := ih hmore'
      exact ⟨rfl, rfl⟩

/-- Every image is cut in some way. -/
theorem exists_delivers (es : Nat) (script : List ReadRes) (rest buf : List UInt8) :
    ∃ blocks left, Delivers es script rest buf blocks left := by
  -- every block takes a byte
  induction hn : rest.length + buf.length using Nat.strong_induction_on generalizing script rest buf
    with
  | _ n ih =>
    have hlen := fillBuf_rest_length es script rest buf
    cases hfill : fillBuf es script rest buf with
    | mk piece p =>
      obtain ⟨rest', script'⟩ := p
      rw [hfill] at hlen
      by_cases hne : piece = []
      · rw [hne] at hfill
        exact ⟨[], rest', .stop hfill⟩
      · have hpos := List.length_pos_iff.mpr hne
        obtain ⟨blocks, left, hmore⟩ :=
          ih _ (by simp only [List.length_nil] at hlen ⊢; omega) script' rest' [] rfl
        exact ⟨_, left, .block hfill hne hmore⟩

/-- The blocks are pieces of the image, filled up, and no byte is lost. -/
theorem Delivers.pieces (h : Delivers es script rest buf blocks left) :
    ∃ pieces : List (List UInt8), blocks = pieces.map (padBlock es) ∧ pieces.flatten ++ left = buf ++ rest := by
  induction h with
  | @stop script rest buf left script' hfill =>
    have happ := fillBuf_append es script rest buf
    rw [hfill] at happ
    exact ⟨[], rfl, happ⟩
  -- the first piece is what filled the buffer
  | @block script rest buf left piece rest' script' blocks hfill hne hmore ih =>
    obtain ⟨pieces, hblocks, hbytes⟩ := ih
    have happ := fillBuf_append es script rest buf
    rw [hfill] at happ
    refine ⟨piece :: pieces, by rw [hblocks, List.map_cons], ?_⟩
    rw [List.flatten_cons, List.append_assoc, hbytes]
    exact happ

/-- A padded piece is a block. -/
theorem length_padBlock {piece : List UInt8} (h : piece.length ≤ es) :
    (padBlock es piece).length = es := by
  rw [padBlock, List.length_append, List.length_replicate]
  omega

/-- Delivered blocks are whole. -/
theorem Delivers.length_eq (h : Delivers es script rest buf blocks left) (hbuf : buf.length ≤ es) :
    ∀ b ∈ blocks, b.length = es := by
  induction h with
  | stop => exact fun b hb => absurd hb List.not_mem_nil
  | @block script rest buf left piece rest' script' blocks hfill hne hmore ih =>
    have hle := fillBuf_length_le es script rest buf hbuf
    rw [hfill] at hle
    intro b hb
    obtain rfl | hb := List.mem_cons.mp hb
    · exact length_padBlock hle
    · exact ih (Nat.zero_le _) b hb

/-! ### Counting the blocks -/

/-- How many blocks the reads deliver with `left` bytes to read and `pos` bytes in a buffer that is
    not full, and `none` if a read fails on an empty buffer while bytes are left. -/
def blocksRead (es : Nat) : List ReadRes → Nat → Nat → Option Nat
  | [], left, pos => some ((pos + left + es - 1) / es)
  | .eintr :: script, left, pos => blocksRead es script left pos
  | .eagain :: script, left, pos => blocksRead es script left pos
  | .error :: script, left, pos =>
    if pos = 0 then if left = 0 then some 0 else none
    else (blocksRead es script left 0).map (· + 1)
  | .short n :: script, left, pos =>
    let got := min (min (max n 1) (es - pos)) left
    if left = 0 then some (if pos = 0 then 0 else 1)
    else if pos + got = es then (blocksRead es script (left - got) 0).map (· + 1)
    else blocksRead es script (left - got) (pos + got)

/-- The blocks of an image, from the bytes that `image_check` has read on. -/
def imageBlocks (es : Nat) (img : Image) : Option Nat :=
  if img.buf.length = es then (blocksRead es img.script img.rest.length 0).map (· + 1)
  else blocksRead es img.script img.rest.length img.buf.length

/-- Of nothing no block is read. -/
private theorem blocksRead_zero (script : List ReadRes) (hes : 0 < es) :
    blocksRead es script 0 0 = some 0 := by
  induction script with
  | nil => exact congrArg some (Nat.div_eq_of_lt (by omega))
  | cons r script ih =>
    cases r with
    | eintr => exact ih
    | eagain => exact ih
    | error => rfl
    | short n => rfl

/-- The blocks from a filled buffer on: no more, if it is empty and nothing is left. -/
def blocksFilled (es : Nat) : List UInt8 × List UInt8 × List ReadRes → Option Nat
  | ([], left, _) => if left.length = 0 then some 0 else none
  | (_ :: _, rest, script) => (blocksRead es script rest.length 0).map (· + 1)

/-- A piece that is not empty is a block. -/
private theorem blocksFilled_of_ne {piece : List UInt8} (hne : piece ≠ []) (rest : List UInt8)
    (script : List ReadRes) :
    blocksFilled es (piece, rest, script) = (blocksRead es script rest.length 0).map (· + 1) := by
  cases piece with
  | nil => exact absurd rfl hne
  | cons b piece => rfl

/-- Filling the buffer takes one block from the count. -/
private theorem blocksRead_fillBuf (hes : 0 < es) (script : List ReadRes) (rest buf : List UInt8)
    (hbuf : buf.length < es) :
    blocksRead es script rest.length buf.length = blocksFilled es (fillBuf es script rest buf) := by
  -- with no more short reads one fill takes all there is room for
  induction script generalizing rest buf with
  | nil =>
    rw [fillBuf]
    have hnil : buf ++ rest.take (es - buf.length) = [] ↔ buf.length + rest.length = 0 := by
      rw [List.append_eq_nil_iff, List.take_eq_nil_iff, ← List.length_eq_zero_iff,
        ← List.length_eq_zero_iff]
      omega
    by_cases hempty : buf.length + rest.length = 0
    · have hrest : rest = [] := List.length_eq_zero_iff.mp (by omega)
      rw [hnil.mpr hempty, hrest, List.drop_nil, blocksRead]
      exact congrArg some (Nat.div_eq_of_lt (by simp only [List.length_nil]; omega))
    · rw [blocksFilled_of_ne (fun h => hempty (hnil.mp h)), blocksRead, blocksRead,
        List.length_drop]
      refine congrArg some ?_
      -- what is left fits the block, or the fill leaves the rest for the next blocks
      by_cases hfits : buf.length + rest.length ≤ es
      · have hsub : rest.length - (es - buf.length) = 0 := by omega
        have hone : (buf.length + rest.length + es - 1) / es = 1 :=
          Nat.div_eq_of_lt_le (by omega) (by omega)
        have hzero : (0 + 0 + es - 1) / es = 0 := Nat.div_eq_of_lt (by omega)
        rw [hsub, hone]
        show 1 = (0 + 0 + es - 1) / es + 1
        rw [hzero]
      · have hsplit : buf.length + rest.length + es - 1 =
            0 + (rest.length - (es - buf.length)) + es - 1 + es := by omega
        rw [hsplit, Nat.add_div_right _ hes]
  | cons r script ih =>
    rw [fillBuf.eq_def]
    simp only [hbuf, ↓reduceIte]
    cases r with
    | eintr => exact ih rest buf hbuf
    | eagain => exact ih rest buf hbuf
    | error =>
      cases buf with
      | nil => rfl
      | cons b buf => rfl
    | short n =>
      cases rest with
      | nil =>
        cases buf with
        | nil => rfl
        | cons b buf =>
          show some 1 = (blocksRead es script 0 0).map (· + 1)
          rw [blocksRead_zero script hes]
          rfl
      | cons b rest =>
        -- a short read delivers at least one byte
        have hgot : min (min (max n 1) (es - buf.length)) (b :: rest).length =
            min (min (n - 1) (es - buf.length - 1)) rest.length + 1 := by
          rw [List.length_cons]
          omega
        have hlen : (buf ++ b :: rest.take (min (n - 1) (es - buf.length - 1))).length =
            buf.length + (min (min (n - 1) (es - buf.length - 1)) rest.length + 1) := by
          rw [List.length_append, List.length_cons, List.length_take]
        have hleft : (rest.drop (min (n - 1) (es - buf.length - 1))).length =
            (b :: rest).length - (min (min (n - 1) (es - buf.length - 1)) rest.length + 1) := by
          rw [List.length_drop, List.length_cons]
          omega
        simp only [blocksRead, hgot, ← hlen, ← hleft]
        rw [if_neg (by simp)]
        by_cases hfull : (buf ++ b :: rest.take (min (n - 1) (es - buf.length - 1))).length = es
        -- the block is full and the script behind it belongs to the next one
        · rw [if_pos hfull, fillBuf_of_full _ _ _ _ hfull, blocksFilled_of_ne (by simp)]
        · rw [if_neg hfull]
          exact ih _ _ (by omega)

/-- The number of blocks can be computed from the lengths. -/
theorem Delivers.blocksRead_eq (h : Delivers es script rest buf blocks left) (hes : 0 < es)
    (hbuf : buf.length < es) :
    blocksRead es script rest.length buf.length =
      if left.length = 0 then some blocks.length else none := by
  induction h with
  | stop hfill =>
    rw [blocksRead_fillBuf hes _ _ _ hbuf, hfill]
    rfl
  | block hfill hne hmore ih =>
    have hrest := ih hes
    rw [blocksRead_fillBuf hes _ _ _ hbuf, hfill, blocksFilled_of_ne hne]
    rw [List.length_nil] at hrest
    rw [hrest]
    split <;> rfl

/-- The count is that of the blocks that the reads deliver, if they leave nothing. -/
theorem Delivers.imageBlocks_eq {img : Image} (h : Delivers es img.script img.rest img.buf blocks left)
    (hes : 0 < es) (hbuf : img.buf.length ≤ es) :
    imageBlocks es img = if left.length = 0 then some blocks.length else none := by
  obtain ⟨buf, rest, script⟩ := img
  simp only at h hbuf
  rw [imageBlocks]
  -- a full buffer is the first block, nothing is read for it
  by_cases hfull : buf.length = es
  · rw [if_pos hfull]
    cases h with
    | stop hfill =>
      rw [fillBuf_of_full _ _ _ _ hfull] at hfill
      cases hfill
      rw [List.length_nil] at hfull
      omega
    | block hfill hne hmore =>
      rw [fillBuf_of_full _ _ _ _ hfull] at hfill
      cases hfill
      have hrest := hmore.blocksRead_eq hes hes
      rw [List.length_nil] at hrest
      rw [hrest]
      split <;> rfl
  · rw [if_neg hfull]
    exact h.blocksRead_eq hes (by omega)

end HandsomeMod.Native.Mtd
