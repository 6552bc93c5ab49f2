import HandsomeMod.Native.RbHardconfig

/-!
# What the run-length decoder accepts

A list of items is decoded item by item, `turn_cases`: each turn of the loop ends it, or it reads
one item and writes what it stands for. `Inv` relates `nbytes` to what was written.
-/

namespace HandsomeMod.Native.RbHardconfig

open ForStd

variable {w : Nat} {a : RleArgs w} {s s' : RleState w}

/-! ### Items -/

/-- A run of a byte, or bytes that are taken as they are. -/
inductive Item where
  | run (n : Nat) (byte : UInt8) (h : n < 128)
  | literal (bytes : List UInt8) (h : 0 < bytes.length ∧ bytes.length ≤ 128)

namespace Item

/-- The bytes of an item in the input. -/
def encode : Item → List UInt8
  | run n byte _ => [UInt8.ofNat n, byte]
  | literal bytes _ => UInt8.ofNat (256 - bytes.length) :: bytes

/-- The bytes that an item stands for. -/
def expand : Item → List UInt8
  | run n byte _ => List.replicate n byte
  | literal bytes _ => bytes

/-- The bytes of a list of items. -/
def encodeAll (items : List Item) : List UInt8 := items.flatMap encode

/-- What a list of items stands for. -/
def expandAll (items : List Item) : List UInt8 := items.flatMap expand

/-- An item takes two bytes at least. -/
private theorem length_encode (item : Item) : 2 ≤ item.encode.length := by
  cases item with
  | run n byte h => exact le_rfl
  | literal bytes h =>
    rw [encode, List.length_cons]
    omega

/-- No byte of the input stands for more than 64 bytes, on an average. -/
private theorem length_expand_le (item : Item) : item.expand.length ≤ 64 * item.encode.length := by
  cases item with
  | run n byte h =>
    rw [expand, encode, List.length_replicate]
    exact (Nat.le_of_lt h)
  | literal bytes h =>
    rw [expand, encode, List.length_cons]
    omega

/-- An item expands to 128 bytes at most. -/
private theorem length_expand_le' (item : Item) : item.expand.length ≤ 128 := by
  cases item with
  | run n byte h =>
    rw [expand, List.length_replicate]
    omega
  | literal bytes h => exact h.2

/-- The first byte of an item, as a number. -/
def head : Item → Nat
  | run n _ _ => n
  | literal bytes _ => 256 - bytes.length

/-- The bytes behind the first one. -/
def tail : Item → List UInt8
  | run _ byte _ => [byte]
  | literal bytes _ => bytes

/-- An item starts with its head. -/
private theorem encode_eq (item : Item) : item.encode = UInt8.ofNat item.head :: item.tail := by
  cases item <;> rfl

/-- The head of an item is a byte. -/
private theorem toNat_head (item : Item) : (UInt8.ofNat item.head).toNat = item.head := by
  apply UInt8.toNat_ofNat_of_lt'
  cases item with
  | run n byte h => exact h.trans (by decide)
  | literal bytes h => exact Nat.sub_lt (by decide) h.1

/-- The bytes tell which item is first and where it ends. -/
private theorem encode_append_inj {item item' : Item} {l l' : List UInt8}
    (h : item.encode ++ l = item'.encode ++ l') : item = item' ∧ l = l' := by
  rw [encode_eq, encode_eq, List.cons_append, List.cons_append, List.cons.injEq] at h
  have hhead := congrArg UInt8.toNat h.1
  have htail := h.2
  rw [toNat_head, toNat_head] at hhead
  cases item with
  | run n byte hn =>
    cases item' with
    | run n' byte' hn' =>
      obtain ⟨rfl, rfl⟩ := List.cons.inj htail
      cases hhead
      exact ⟨rfl, rfl⟩
    | literal bytes hb =>
      -- the head of a run is below 128, that of a literal is not
      simp only [head] at hhead
      omega
  | literal bytes hb =>
    cases item' with
    | run n' byte' hn' =>
      simp only [head] at hhead
      omega
    | literal bytes' hb' =>
      simp only [head] at hhead
      obtain ⟨rfl, rfl⟩ := List.append_inj htail (show bytes.length = bytes'.length by omega)
      exact ⟨rfl, rfl⟩

/-- A literal is not cut off. -/
private theorem not_cut (item : Item) {head : UInt8} {rest l : List UInt8}
    (hhead : 128 ≤ head.toNat)
    (hcut : rest.length < 256 - head.toNat) : head :: rest ≠ item.encode ++ l := by
  intro heq
  rw [encode_eq, List.cons_append, List.cons.injEq] at heq
  obtain ⟨hfirst, htail⟩ := heq
  have hnum := item.toNat_head
  have hlength := congrArg List.length htail
  rw [← hfirst] at hnum
  rw [List.length_append] at hlength
  cases item with
  -- a run has a head below 128
  | run n byte hn =>
    simp only [Item.head] at hnum
    omega
  -- a literal has as many bytes behind its head as the head says
  | literal bytes hb =>
    simp only [Item.head, Item.tail] at hnum hlength
    omega

end Item

/-! ### The copying loops -/

/-- Bytes that are there and have room are copied. -/
private theorem copyIn_eq {input : List UInt8} {cap run pos : Nat} {out : List UInt8}
    (hin : pos + run ≤ input.length) (hout : out.length + run ≤ cap) :
    copyIn input cap run pos out = some (out ++ (input.drop pos).take run) := by
  induction run generalizing pos out with
  | zero => simp [copyIn]
  | succ run ih =>
    have hpos : pos < input.length := by omega
    rw [copyIn, List.getElem?_eq_getElem hpos]
    simp only
    rw [if_pos (by omega), ih (by omega) (by rw [List.length_append, List.length_singleton]; omega),
      List.drop_eq_getElem_cons hpos, List.take_succ_cons, List.append_assoc, List.singleton_append]

/-- A byte that has room is repeated. -/
private theorem fillOut_eq {cap run : Nat} {byte : UInt8} {out : List UInt8}
    (hout : out.length + run ≤ cap) :
    fillOut cap byte run out = some (out ++ List.replicate run byte) := by
  induction run generalizing out with
  | zero => simp [fillOut]
  | succ run ih =>
    rw [fillOut, if_pos (by omega), ih (by rw [List.length_append, List.length_singleton]; omega),
      List.replicate_succ, List.append_assoc, List.singleton_append]

/-! ### Counting -/

/-- A `size_t` has 32 bits at least. -/
theorem RleArgs.width_le (a : RleArgs w) : 32 ≤ w := by
  rcases a.width with h | h <;> omega

/-- An `int` that counted to `x`, as `size_t`. -/
private theorem toNat_signExtend_ofNat (hw : 32 ≤ w) (x : Nat) :
    ((BitVec.ofNat 32 x).signExtend w).toNat =
      if x % 2 ^ 32 < 2 ^ 31 then x % 2 ^ 32 else x % 2 ^ 32 + (2 ^ w - 2 ^ 32) := by
  rw [BitVec.toNat_signExtend, BitVec.toNat_setWidth_of_le hw, BitVec.msb_eq_decide,
    BitVec.toNat_ofNat]
  simp only [decide_eq_true_eq]
  split <;> split <;> omega

/-- The count `x` is not negative as `int`, or this is no harm. -/
def Counts (a : RleArgs w) (x : Nat) : Prop :=
  w = 32 ∨ x < 2 ^ 31 ∨ 2 ^ w - 2 ^ 31 ≤ a.outlen.toNat

/-- What passes the check fits: an `int` that wraps around does so only where there is no room for the
input any more, or where it is too large for the output. -/
private theorem fits_of_check {x y : Nat} (hcounts : Counts a y) (hy : y ≤ a.outlen.toNat)
    (hx : x ≤ y + 128) (hdense : x ≤ 64 * a.input.length)
    (hcheck : ¬(BitVec.ofNat 32 x).signExtend w > a.outlen) : x ≤ a.outlen.toNat ∧ Counts a x := by
  have hapart := a.apart
  have hlt := a.outlen.isLt
  have hval := toNat_signExtend_ofNat a.width_le x
  have hle := BitVec.le_def.mp (BitVec.not_lt.mp hcheck)
  rw [hval] at hle
  unfold Counts at hcounts ⊢
  rcases a.width with hw | hw
  · subst hw
    split at hle <;> omega
  · subst hw
    split at hle <;> omega

/-- What fits passes the check, if it is counted right. -/
private theorem check_of_fits {x : Nat} (hx : x ≤ a.outlen.toNat) (hint : w = 32 ∨ x < 2 ^ 31) :
    ¬(BitVec.ofNat 32 x).signExtend w > a.outlen := by
  have hlt := a.outlen.isLt
  have hval := toNat_signExtend_ofNat a.width_le x
  apply BitVec.not_lt.mpr
  rw [BitVec.le_def, hval]
  rcases hint with hw | hx'
  · subst hw
    split <;> omega
  · rw [Nat.mod_eq_of_lt (by omega), if_pos hx']
    exact hx

/-! ### A turn of the loop -/

/-- What holds in front of each turn. -/
structure Inv (a : RleArgs w) (s : RleState w) : Prop where
  pos : s.pos + s.inlen.toNat = a.input.length
  nbytes : s.nbytes = BitVec.ofNat 32 s.out.length
  fits : s.out.length ≤ a.outlen.toNat
  dense : s.out.length ≤ 64 * s.pos
  counts : Counts a s.out.length

/-- The item at the position of a state takes it to another one. -/
structure Item.Moves (item : Item) (a : RleArgs w) (s s' : RleState w) : Prop where
  input : a.input.drop s.pos = item.encode ++ a.input.drop s'.pos
  out : s'.out = s.out ++ item.expand
  pos : s'.pos = s.pos + item.encode.length
  inlen : s'.inlen.toNat + item.encode.length = s.inlen.toNat
  nbytes : s'.nbytes = BitVec.ofNat 32 s'.out.length

/-- The outcome of a turn that reads an item, if it fits. -/
def Item.Outcome (item : Item) (a : RleArgs w) (s : RleState w)
    (r : Option (RleRet w) ⊕ RleState w) : Prop :=
  if (BitVec.ofNat 32 (s.out.length + item.expand.length)).signExtend w > a.outlen then
    r = .inl (some (s.fail (BitVec.ofNat 32 (s.out.length + item.expand.length)) (-enospc)))
  else ∃ s', r = .inr s' ∧ item.Moves a s s'

/-- The highest bit of the head says that bytes follow. -/
private theorem isLiteral_iff : ∀ head : BitVec 8,
    head.setWidth 32 &&& (0x80 : BitVec 32) ≠ 0 ↔ 128 ≤ head.toNat := by
  decide +kernel

/-- How many bytes follow. -/
private theorem literal_run : ∀ head : BitVec 8, 128 ≤ head.toNat →
    (~~~head.setWidth 32 &&& (0xff : BitVec 32)) + 1 = BitVec.ofNat 32 (256 - head.toNat) := by
  decide +kernel

/-- A number that is no larger than a byte is the same as `size_t`. -/
private theorem toNat_signExtend_small (hw : 32 ≤ w) {n : Nat} (h : n ≤ 256) :
    ((BitVec.ofNat 32 n).signExtend w).toNat = n := by
  rw [toNat_signExtend_ofNat hw, Nat.mod_eq_of_lt (by omega), if_pos (by omega)]

/-- The count of what is written next. -/
private theorem Inv.nbytes_add (h : Inv a s) (n : Nat) :
    s.nbytes + BitVec.ofNat 32 n = BitVec.ofNat 32 (s.out.length + n) := by
  rw [h.nbytes, BitVec.ofNat_add]

/-- What an item stands for fits where its check passes. -/
theorem Inv.fits_item (h : Inv a s) {item : Item} {l : List UInt8}
    (hinput : a.input.drop s.pos = item.encode ++ l)
    (hcheck : ¬(BitVec.ofNat 32 (s.out.length + item.expand.length)).signExtend w > a.outlen) :
    s.out.length + item.expand.length ≤ a.outlen.toNat ∧
      Counts a (s.out.length + item.expand.length) := by
  have hlen := congrArg List.length hinput
  have hpos := h.pos
  have hdense := h.dense
  have hitem := item.length_expand_le
  have hitem' := item.length_expand_le'
  rw [List.length_drop, List.length_append] at hlen
  exact fits_of_check h.counts h.fits (by omega) (by omega) hcheck

/-- A number of 32 bits fits a `size_t`. -/
private theorem toNat_lit (hw : 32 ≤ w) {n : Nat} (h : n < 2 ^ 32) : (BitVec.ofNat w n).toNat = n :=
  Nat.mod_eq_of_lt (h.trans_le (Nat.pow_le_pow_right (by omega) hw))

/-- The differences of `inlen` are those of numbers. -/
private theorem toNat_inlen_sub (hw : 32 ≤ w) {inlen r : BitVec w} (h : r.toNat + 1 ≤ inlen.toNat) :
    (inlen - 1 - r).toNat + (r.toNat + 1) = inlen.toNat := by
  have hone : (1 : BitVec w).toNat = 1 := toNat_lit hw (by decide)
  have hfirst : (inlen - 1).toNat = inlen.toNat - 1 := by
    rw [BitVec.toNat_sub_of_le, hone]
    rw [BitVec.le_def, hone]
    omega
  rw [BitVec.toNat_sub_of_le, hfirst]
  · omega
  · rw [BitVec.le_def, hfirst]
    omega

/-- An input of two bytes is not too short. -/
private theorem not_lt_two (hw : 32 ≤ w) {inlen : BitVec w} (h : 2 ≤ inlen.toNat) : ¬inlen < 2 := by
  have htwo : (2 : BitVec w).toNat = 2 := toNat_lit hw (by decide)
  rw [BitVec.lt_def, htwo]
  omega

/-- The bytes at the position are what is left of the input. -/
private theorem getElem?_of_drop {l rest : List UInt8} {i : Nat} {head : UInt8}
    (h : l.drop i = head :: rest) : l[i]? = some head ∧ l.drop (i + 1) = rest := by
  constructor
  · rw [← List.head?_drop, h]
    rfl
  · rw [← List.tail_drop, h]
    rfl

/-- A turn on a first byte below 128. -/
private theorem turn_run (h : Inv a s) {head byte : UInt8} {rest : List UInt8}
    (hinput : a.input.drop s.pos = head :: byte :: rest) (hlen : 2 ≤ s.inlen.toNat)
    (hhead : head.toNat < 128) :
    ∃ item l, a.input.drop s.pos = Item.encode item ++ l ∧ item.Outcome a s (rleTurn a s) := by
  have hw := a.width_le
  have hrun : head.toBitVec.setWidth 32 = BitVec.ofNat 32 head.toNat :=
    (BitVec.ofNat_toNat 32 head.toBitVec).symm
  -- a head below 128 is a count, the byte behind it is repeated
  have hnot : ¬(head.toBitVec.setWidth 32 &&& (0x80 : BitVec 32) ≠ 0) := by
    rw [isLiteral_iff]
    exact not_le.mpr hhead
  obtain ⟨hget, htail⟩ := getElem?_of_drop hinput
  obtain ⟨hget', hrest⟩ := getElem?_of_drop htail
  let item := Item.run head.toNat byte hhead
  have hexpand : item.expand = List.replicate head.toNat byte := rfl
  have hitem : a.input.drop s.pos = item.encode ++ rest := by
    rw [hinput]
    simp only [item, Item.encode, UInt8.ofNat_toNat, List.cons_append, List.nil_append]
  refine ⟨item, rest, hitem, ?_⟩
  rw [Item.Outcome, rleTurn, if_neg (not_lt_two hw hlen)]
  simp only [hget, hget']
  rw [if_neg hnot, hrun, h.nbytes_add, hexpand, List.length_replicate]
  split
  · rfl
  · next hcheck =>
    have hpos : a.input.drop (s.pos + 2) = rest := hrest
    -- behind the check the run fits the output, and the turn takes two bytes of input
    have hone : (1 : BitVec w).toNat = 1 := toNat_lit hw (by decide)
    have hle : (1 : BitVec w).toNat + 1 ≤ s.inlen.toNat := by
      rw [hone]
      exact hlen
    have hinlen := toNat_inlen_sub hw hle
    obtain ⟨hfits, -⟩ := h.fits_item hitem (by rwa [hexpand, List.length_replicate])
    rw [hexpand, List.length_replicate] at hfits
    rw [BitVec.toNat_ofNat, Nat.mod_eq_of_lt (by omega), fillOut_eq hfits]
    refine ⟨_, rfl, { input := ?_, out := rfl, pos := rfl, inlen := ?_, nbytes := ?_ }⟩
    · rw [hpos]
      exact hitem
    · rw [hone] at hinlen
      exact hinlen
    · simp only [List.length_append, List.length_replicate]

/-- A turn on a first byte from 128 on. -/
private theorem turn_literal (h : Inv a s) {head : UInt8} {rest : List UInt8}
    (hinput : a.input.drop s.pos = head :: rest) (hlen : 2 ≤ s.inlen.toNat)
    (hhead : 128 ≤ head.toNat) :
    ((∀ item l, a.input.drop s.pos ≠ Item.encode item ++ l) ∧
        rleTurn a s = .inl (some (s.fail s.nbytes (-enospc)))) ∨
      ∃ item l, a.input.drop s.pos = Item.encode item ++ l ∧ item.Outcome a s (rleTurn a s) := by
  have hw := a.width_le
  have hbyte := head.toNat_lt
  -- the head of a literal is the negated count, from 128 to 1
  have hrun : (~~~head.toBitVec.setWidth 32 &&& (0xff : BitVec 32)) + 1 =
      BitVec.ofNat 32 (256 - head.toNat) := literal_run head.toBitVec hhead
  have hsmall : ((BitVec.ofNat 32 (256 - head.toNat)).signExtend w).toNat = 256 - head.toNat :=
    toNat_signExtend_small hw (by omega)
  have hone : (1 : BitVec w).toNat = 1 := toNat_lit hw (by decide)
  obtain ⟨hget, htail⟩ := getElem?_of_drop hinput
  have hrest : rest.length + 1 = s.inlen.toNat := by
    have hlength := congrArg List.length hinput
    have hpos := h.pos
    rw [List.length_drop, List.length_cons] at hlength
    omega
  have hturn := rleTurn.eq_1 a s
  rw [if_neg (not_lt_two hw hlen)] at hturn
  simp only [hget] at hturn
  rw [if_pos ((isLiteral_iff _).mpr hhead), hrun] at hturn
  -- the subtraction cannot wrap, there are two bytes at least
  have hinlen1 : (s.inlen - 1).toNat = rest.length := by
    rw [BitVec.toNat_sub_of_le, hone]
    · omega
    · rw [BitVec.le_def, hone]
      omega
  by_cases hcut : rest.length < 256 - head.toNat
  · -- The bytes that are announced are not there.
    left
    constructor
    · rw [hinput]
      exact fun item l => item.not_cut hhead hcut
    · rw [hturn, if_pos]
      rw [gt_iff_lt, BitVec.lt_def, hsmall, hinlen1]
      exact hcut
  · right
    have htake : (rest.take (256 - head.toNat)).length = 256 - head.toNat := by
      rw [List.length_take]
      omega
    -- all the bytes are there: the turn copies them
    let item := Item.literal (rest.take (256 - head.toNat)) (by omega)
    have hexpand : item.expand = rest.take (256 - head.toNat) := rfl
    have hencode : item.encode = head :: rest.take (256 - head.toNat) := by
      have hback : 256 - (256 - head.toNat) = head.toNat := by omega
      simp only [item, Item.encode, htake, hback, UInt8.ofNat_toNat]
    have hitem : a.input.drop s.pos = item.encode ++ rest.drop (256 - head.toNat) := by
      rw [hinput, hencode, List.cons_append, List.take_append_drop]
    refine ⟨item, _, hitem, ?_⟩
    rw [if_neg, h.nbytes_add] at hturn
    · rw [Item.Outcome, hturn, hexpand, htake]
      split
      · rfl
      · next hcheck =>
        obtain ⟨hfits, -⟩ := h.fits_item hitem (by rwa [hexpand, htake])
        have hpos := h.pos
        have hle : ((BitVec.ofNat 32 (256 - head.toNat)).signExtend w).toNat + 1 ≤ s.inlen.toNat := by
          rw [hsmall]
          omega
        have hinlen := toNat_inlen_sub hw hle
        rw [hexpand, htake] at hfits
        have hnum : (BitVec.ofNat 32 (256 - head.toNat)).toNat = 256 - head.toNat := by
          rw [BitVec.toNat_ofNat, Nat.mod_eq_of_lt (by omega)]
        rw [hnum, copyIn_eq (by omega) hfits, htail]
        refine ⟨_, rfl, { input := ?_, out := rfl, pos := ?_, inlen := ?_, nbytes := ?_ }⟩
        · simp only [← List.drop_drop, htail]
          exact hitem
        · rw [hencode, List.length_cons, htake]
          change s.pos + 1 + (256 - head.toNat) = _
          omega
        · rw [hencode, List.length_cons, htake]
          rw [hsmall] at hinlen
          exact hinlen
        · simp only [List.length_append, htake]
    · rw [gt_iff_lt, BitVec.lt_def, hsmall, hinlen1]
      exact hcut

/-- Each turn ends the loop, or it reads one item. -/
private theorem turn_cases (h : Inv a s) :
    (s.inlen.toNat < 2 ∧ rleTurn a s = .inl (some (s.fail s.nbytes 0))) ∨
      (2 ≤ s.inlen.toNat ∧ (∀ item l, a.input.drop s.pos ≠ Item.encode item ++ l) ∧
        rleTurn a s = .inl (some (s.fail s.nbytes (-enospc)))) ∨
      ∃ item l, a.input.drop s.pos = Item.encode item ++ l ∧ item.Outcome a s (rleTurn a s) := by
  -- fewer than two bytes end the loop, otherwise the top bit of the head decides
  by_cases hlen : s.inlen.toNat < 2
  · left
    have htwo : (2 : BitVec w).toNat = 2 := toNat_lit a.width_le (by decide)
    refine ⟨hlen, ?_⟩
    rw [rleTurn, if_pos]
    rw [BitVec.lt_def, htwo]
    exact hlen
  · right
    have hpos := h.pos
    have hlength := List.length_drop (i := s.pos) (l := a.input)
    cases hinput : a.input.drop s.pos with
    | nil =>
      rw [hinput, List.length_nil] at hlength
      omega
    | cons head rest =>
      rw [← hinput]
      by_cases hhead : 128 ≤ head.toNat
      · rcases turn_literal h hinput (not_lt.mp hlen) hhead with hcut | hitem
        · exact .inl ⟨not_lt.mp hlen, hcut⟩
        · exact .inr hitem
      · cases rest with
        | nil =>
          rw [hinput, List.length_singleton] at hlength
          omega
        | cons byte rest =>
          exact .inr (turn_run h hinput (not_lt.mp hlen) (not_le.mp hhead))

/-- An item that is read keeps the invariant. -/
theorem Item.Moves.inv {item : Item} (h : item.Moves a s s') (hinv : Inv a s)
    (hcheck : ¬(BitVec.ofNat 32 (s.out.length + item.expand.length)).signExtend w > a.outlen) :
    Inv a s' := by
  obtain ⟨hfits, hcounts⟩ := hinv.fits_item h.input hcheck
  have hlen : s'.out.length = s.out.length + item.expand.length := by
    rw [h.out, List.length_append]
  have hdense := hinv.dense
  have hpos := hinv.pos
  have hitem := item.length_expand_le
  have hmoved := h.pos
  have hleft := h.inlen
  exact {
    pos := by omega
    nbytes := h.nbytes
    fits := by rw [hlen]; exact hfits
    dense := by omega
    counts := by rw [hlen]; exact hcounts }

/-! ### A run of the loop -/

/-- At the start nothing was expanded. -/
theorem inv_start (a : RleArgs w) : Inv a (rleStart a) where
  pos := by
    rw [rleStart, RleArgs.inlen, BitVec.toNat_ofNat, Nat.mod_eq_of_lt a.input_lt, Nat.zero_add]
  nbytes := rfl
  fits := Nat.zero_le _
  dense := Nat.zero_le _
  counts := .inr (.inl (show 0 < 2 ^ 31 by decide))

/-- The loop ends, no access is outside of a buffer, and no more is written than there is room
for. -/
theorem run_bounded {fuel : Nat} (h : Inv a s) (hfuel : s.inlen.toNat < fuel) :
    ∃ r, Loop.run (rleTurn a) fuel s = some (some r) ∧ r.out.length ≤ a.outlen.toNat := by
  induction fuel generalizing s with
  | zero => omega
  | succ fuel ih =>
    rw [Loop.run]
    rcases turn_cases h with ⟨-, hturn⟩ | ⟨-, -, hturn⟩ | ⟨item, l, hinput, hturn⟩
    · rw [hturn]
      exact ⟨_, rfl, h.fits⟩
    · rw [hturn]
      exact ⟨_, rfl, h.fits⟩
    · rw [Item.Outcome] at hturn
      -- an item that does not fit ends the run, another one shortens the input
      split at hturn
      · rw [hturn]
        exact ⟨_, rfl, h.fits⟩
      · next hcheck =>
        obtain ⟨s', hs', hmoves⟩ := hturn
        have hlen := item.length_encode
        have hleft := hmoves.inlen
        rw [hs']
        exact ih (hmoves.inv h hcheck) (by omega)

/-- The `int` that is returned in `*outlen`. -/
theorem Inv.outlen_eq (h : Inv a s) (hint : w = 32 ∨ s.out.length < 2 ^ 31) :
    s.nbytes.signExtend w = BitVec.ofNat w s.out.length := by
  have hfits := h.fits
  have hlt := a.outlen.isLt
  have hmod : s.out.length % 2 ^ w = s.out.length := Nat.mod_eq_of_lt (by omega)
  apply BitVec.eq_of_toNat_eq
  rw [h.nbytes, toNat_signExtend_ofNat a.width_le, BitVec.toNat_ofNat, hmod]
  rcases hint with hw | hshort
  · subst hw
    split <;> omega
  · rw [Nat.mod_eq_of_lt (by omega), if_pos hshort]

/-- The loop at the end of the items. -/
theorem run_nil {fuel : Nat} (h : Inv a s) (hinput : a.input.drop s.pos = []) :
    Loop.run (rleTurn a) (fuel + 1) s = some (some (s.fail s.nbytes 0)) := by
  have hlength := congrArg List.length hinput
  have hpos := h.pos
  rw [List.length_drop, List.length_nil] at hlength
  rw [Loop.run]
  rcases turn_cases h with ⟨-, hturn⟩ | ⟨hlen, -, -⟩ | ⟨item, l, heq, -⟩
  · rw [hturn]
  · omega
  · have hlen := item.length_encode
    have hlength' := congrArg List.length (hinput.symm.trans heq)
    rw [List.length_nil, List.length_append] at hlength'
    omega

/-- A turn of the loop at an item. -/
private theorem turn_item (h : Inv a s) {item : Item} {l : List UInt8}
    (hinput : a.input.drop s.pos = item.encode ++ l) : item.Outcome a s (rleTurn a s) := by
  rcases turn_cases h with ⟨hlen, -⟩ | ⟨-, hnone, -⟩ | ⟨item', l', heq, hturn⟩
  · have hitem := item.length_encode
    have hlength := congrArg List.length hinput
    have hpos := h.pos
    rw [List.length_drop, List.length_append] at hlength
    omega
  · exact absurd hinput (hnone item l)
  · rw [(Item.encode_append_inj (hinput.symm.trans heq)).1]
    exact hturn

/-- The loop on a list of items: it decodes what fits and is counted right, and there is no room for
what is not even counted. -/
theorem run_items (items : List Item) {fuel : Nat} (h : Inv a s)
    (hinput : a.input.drop s.pos = Item.encodeAll items) (hfuel : s.inlen.toNat < fuel) :
    (s.out.length + (Item.expandAll items).length ≤ a.outlen.toNat →
      w = 32 ∨ s.out.length + (Item.expandAll items).length < 2 ^ 31 →
      Loop.run (rleTurn a) fuel s = some (some {
        ret := 0
        outlen := BitVec.ofNat w (s.out.length + (Item.expandAll items).length)
        out := s.out ++ Item.expandAll items })) ∧
    (¬(s.out.length + (Item.expandAll items).length ≤ a.outlen.toNat ∧
        Counts a (s.out.length + (Item.expandAll items).length)) →
      ∃ r, Loop.run (rleTurn a) fuel s = some (some r) ∧ r.ret = -enospc) := by
  -- one item is one turn, and the output of the turn is the start of the rest
  induction items generalizing s fuel with
  | nil =>
    obtain ⟨fuel, rfl⟩ := Nat.exists_eq_succ_of_ne_zero (show fuel ≠ 0 by omega)
    simp only [Item.expandAll, List.flatMap_nil, List.length_nil, Nat.add_zero, List.append_nil]
    constructor
    · intro _ hint
      rw [run_nil h hinput, RleState.fail, h.outlen_eq hint]
    -- the output so far fits already
    · exact fun hnot => absurd ⟨h.fits, h.counts⟩ hnot
  | cons item items ih =>
    obtain ⟨fuel, rfl⟩ := Nat.exists_eq_succ_of_ne_zero (show fuel ≠ 0 by omega)
    have hitem : a.input.drop s.pos = item.encode ++ Item.encodeAll items := hinput
    have hexpand : Item.expandAll (item :: items) = item.expand ++ Item.expandAll items := rfl
    have hturn := turn_item h hitem
    rw [Item.Outcome] at hturn
    rw [Loop.run, hexpand, List.length_append, ← Nat.add_assoc, ← List.append_assoc]
    split at hturn
    · next hcheck =>
      rw [hturn]
      constructor
      · -- What fits and is counted right passes the check.
        intro hfits hint
        exact absurd hcheck (check_of_fits (by omega) (by omega))
      · exact fun _ => ⟨_, rfl, rfl⟩
    · next hcheck =>
      obtain ⟨s', hs', hmoves⟩ := hturn
      have hlen := item.length_encode
      have hleft := hmoves.inlen
      -- the input left is that of the other items
      have hrest : a.input.drop s'.pos = Item.encodeAll items :=
        List.append_cancel_left (hmoves.input.symm.trans hitem)
      have hfuel' : s'.inlen.toNat < fuel := by omega
      have hnext := ih (hmoves.inv h hcheck) hrest hfuel'
      rw [hmoves.out, List.length_append] at hnext
      rw [hs']
      exact hnext

/-! ### The result -/

/-- A list that is not empty takes two bytes at least. -/
theorem length_encodeAll {items : List Item} (h : items ≠ []) : 2 ≤ (Item.encodeAll items).length := by
  obtain ⟨item, items, rfl⟩ := List.exists_cons_of_ne_nil h
  have hlen := item.length_encode
  rw [Item.encodeAll, List.flatMap_cons, List.length_append]
  omega

/-- The decoder is its loop, for inputs of two bytes and more. -/
theorem routerbootRleDecode_eq (hpresent : a.present = true) (hlen : 2 ≤ a.input.length) (fuel : Nat) :
    routerbootRleDecode a fuel = Loop.run (rleTurn a) fuel (rleStart a) := by
  have htwo : (2 : BitVec w).toNat = 2 := toNat_lit a.width_le (by decide)
  have hinlen : a.inlen.toNat = a.input.length := Nat.mod_eq_of_lt a.input_lt
  rw [routerbootRleDecode, if_neg]
  rintro (hnull | hshort)
  · rw [hpresent] at hnull
    cases hnull
  · rw [BitVec.lt_def, htwo, hinlen] at hshort
    omega

/-- The decoder ends and stays inside of the buffers on any input. -/
theorem rleDecode_inside (a : RleArgs w) {fuel : Nat} (hfuel : a.input.length < fuel) :
    ∃ r, routerbootRleDecode a fuel = some (some r) ∧ r.out.length ≤ a.outlen.toNat := by
  have hstart := inv_start a
  have hpos := hstart.pos
  rw [routerbootRleDecode]
  split
  · exact ⟨_, rfl, Nat.zero_le _⟩
  · exact run_bounded hstart (by omega)

/-- The decoder stays inside of the buffers on any input. On items it returns what they stand for, if
that fits, unless an `int` cannot count it and `size_t` is longer. -/
theorem rleDecode_exact (a : RleArgs w) {fuel : Nat} (hfuel : a.input.length < fuel) :
    (∃ r, routerbootRleDecode a fuel = some (some r) ∧ r.out.length ≤ a.outlen.toNat) ∧
    ∀ items, items ≠ [] → a.present = true → a.input = Item.encodeAll items →
      ((Item.expandAll items).length ≤ a.outlen.toNat →
        w = 32 ∨ (Item.expandAll items).length < 2 ^ 31 →
        routerbootRleDecode a fuel = some (some {
          ret := 0
          outlen := BitVec.ofNat w (Item.expandAll items).length
          out := Item.expandAll items })) ∧
      (a.outlen.toNat < (Item.expandAll items).length →
        ∃ r, routerbootRleDecode a fuel = some (some r) ∧ r.ret = -enospc) := by
  constructor
  · exact rleDecode_inside a hfuel
  · intro items hne hpresent hinput
    have hstart := inv_start a
    have hinlen : (rleStart a).inlen.toNat < fuel := by
      have hpos := hstart.pos
      omega
    have hlen := length_encodeAll hne
    rw [← hinput] at hlen
    have hrun := run_items items hstart hinput hinlen
    -- nothing is written before the first item
    have hzero : (rleStart a).out = [] := rfl
    rw [hzero, List.length_nil, Nat.zero_add, List.nil_append] at hrun
    rw [routerbootRleDecode_eq hpresent hlen]
    exact ⟨hrun.1, fun hlong => hrun.2 fun hfits => by omega⟩

/-! ### Examples -/

private theorem threeTwo_apart :
    ([3, 7, 254, 1, 2] : List UInt8).length + (5 : BitVec 32).toNat ≤ 2 ^ 32 := by
  decide

/-- A run and a literal. -/
def threeTwo : RleArgs 32 where
  input := [3, 7, 254, 1, 2]
  outlen := 5
  present := true
  width := .inl rfl
  input_lt := by decide
  apart := threeTwo_apart

/-- A repeated byte, and two bytes as they are. -/
theorem rleDecode_exact_threeTwo :
    routerbootRleDecode threeTwo 6 =
      some (some { ret := 0, outlen := BitVec.ofNat 32 5, out := [7, 7, 7, 1, 2] }) :=
  ((rleDecode_exact threeTwo (show threeTwo.input.length < 6 by decide)).2
    [.run 3 7 (by decide), .literal [1, 2] (by decide)] (by simp) rfl rfl).1 (by decide) (.inl rfl)

private theorem noItems_apart : ([] : List UInt8).length + (0 : BitVec 64).toNat ≤ 2 ^ 64 := by
  decide

/-- No items at all. -/
def noItems : RleArgs 64 where
  input := []
  outlen := 0
  present := true
  width := .inr rfl
  input_lt := by decide
  apart := noItems_apart

/-- Runs of 127 bytes, 2 GiB altogether. -/
def longItems : List Item := List.replicate 16909321 (.run 127 0 (by decide))

/-- The input of equal items. -/
private theorem length_encodeAll_replicate (n : Nat) (item : Item) :
    (Item.encodeAll (List.replicate n item)).length = n * item.encode.length := by
  rw [Item.encodeAll, List.length_flatMap, List.map_replicate, List.sum_replicate, smul_eq_mul]

/-- The output of equal items. -/
theorem length_expandAll_replicate (n : Nat) (item : Item) :
    (Item.expandAll (List.replicate n item)).length = n * item.expand.length := by
  rw [Item.expandAll, List.length_flatMap, List.map_replicate, List.sum_replicate, smul_eq_mul]

private theorem longArgs_length : (Item.encodeAll longItems).length = 33818642 :=
  length_encodeAll_replicate _ _

private theorem longArgs_lt : (Item.encodeAll longItems).length < 2 ^ 64 := by
  rw [longArgs_length]
  decide

private theorem longArgs_apart :
    (Item.encodeAll longItems).length + (2 ^ 32 : BitVec 64).toNat ≤ 2 ^ 64 := by
  rw [longArgs_length]
  decide

/-- There is room for the runs. -/
def longArgs : RleArgs 64 where
  input := Item.encodeAll longItems
  outlen := 2 ^ 32
  present := true
  width := .inr rfl
  input_lt := longArgs_lt
  apart := longArgs_apart

/-- Neither no items are decoded, nor 2 GiB where `size_t` is longer than `int`. -/
theorem rleDecode_not_exact :
    (noItems.present = true ∧ noItems.input = Item.encodeAll [] ∧
      ∃ r, routerbootRleDecode noItems 1 = some (some r) ∧ r.ret = -einval) ∧
    longArgs.present = true ∧ longArgs.input = Item.encodeAll longItems ∧
      (Item.expandAll longItems).length ≤ longArgs.outlen.toNat ∧
      ∃ r, routerbootRleDecode longArgs (longArgs.input.length + 1) = some (some r) ∧
        r.ret = -enospc := by
  -- more output than an `int` counts, of about 34 million bytes of input
  have hlong : (Item.expandAll longItems).length = 2147483767 := by
    rw [longItems, length_expandAll_replicate, Item.expand, List.length_replicate]
  have hroom : longArgs.outlen.toNat = 2 ^ 32 := by decide
  have hlen : longArgs.input.length = 33818642 := longArgs_length
  refine ⟨⟨rfl, rfl, _, rfl, rfl⟩, rfl, rfl, by omega, ?_⟩
  have hstart := inv_start longArgs
  have hfuel : (rleStart longArgs).inlen.toNat < longArgs.input.length + 1 := by
    have hpos := hstart.pos
    omega
  have hrun := run_items longItems hstart rfl hfuel
  rw [routerbootRleDecode_eq rfl (by omega)]
  apply hrun.2
  rintro ⟨-, hcounts⟩
  have hzero : (rleStart longArgs).out.length = 0 := rfl
  rw [Counts, hzero] at hcounts
  omega

end HandsomeMod.Native.RbHardconfig
