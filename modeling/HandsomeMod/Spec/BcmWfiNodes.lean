import HandsomeMod.ForStd.Align
import HandsomeMod.ForStd.Except
import HandsomeMod.Native.BcmWfi

/-!
# The nodes of an erase block

What the search for a file does with each node of a block, in terms of the bytes of the block alone:
where it leaves the block, where it ends and where it goes on.
-/

namespace HandsomeMod.Native.BcmWfi

open ForStd MtdCore

/-! ### Directory entries -/

/-- As much of the header of a node as is looked at is inside the block. -/
def HeaderInside (e : Endian) (buf : List UInt8) (i : Nat) : Prop :=
  i + 2 ≤ buf.length ∧ (fieldAt e 2 buf i = jffs2MagicBitmask →
    i + 4 ≤ buf.length ∧ (fieldAt e 2 buf (i + 2) = jffs2NodetypeDirent →
      i + 24 ≤ buf.length ∧ (fieldAt e 4 buf (i + 20) ≠ 0 → i + 36 ≤ buf.length)))

/-- A directory entry in use, by its type and its CRC. -/
def IsDirent (e : Endian) (buf : List UInt8) (i : Nat) : Prop :=
  fieldAt e 2 buf i = jffs2MagicBitmask ∧ fieldAt e 2 buf (i + 2) = jffs2NodetypeDirent ∧
    fieldAt e 4 buf (i + 20) ≠ 0 ∧
    fieldAt e 4 buf (i + 32) = (Crc.accumulate 0 ((buf.drop i).take 32)).toNat

/-- The bytes from the name of a node on are these, whatever its `nsize`. -/
def Begins (buf : List UInt8) (i : Nat) (s : List UInt8) : Prop :=
  (buf.drop (i + sizeofRawDirent)).take s.length = s

/-- The `nsize` of a directory entry -/
def nsizeAt (e : Endian) (buf : List UInt8) (i : Nat) : Nat := fieldAt e 1 buf (i + 28)

instance (e : Endian) (buf : List UInt8) (i : Nat) : Decidable (HeaderInside e buf i) :=
  inferInstanceAs (Decidable (_ ∧ _))

instance (e : Endian) (buf : List UInt8) (i : Nat) : Decidable (IsDirent e buf i) :=
  inferInstanceAs (Decidable (_ ∧ _))

instance (buf : List UInt8) (i : Nat) (s : List UInt8) : Decidable (Begins buf i s) :=
  inferInstanceAs (Decidable (_ = _))

variable {e : Endian} {buf : List UInt8} {i n : Nat}

/-- A field inside of the buffer is read. -/
private theorem readField_of_le (h : i + n ≤ buf.length) :
    readField e n buf i = .ok (fieldAt e n buf i) := if_pos h

/-- A field that goes past the buffer is read outside. -/
private theorem readField_of_lt (h : buf.length < i + n) : readField e n buf i = .error .outOfBounds
    :=
  if_neg (by omega)

/-- Bytes inside of the buffer are read. -/
private theorem readBytes_of_le (h : i + n ≤ buf.length) :
    readBytes buf i n = .ok ((buf.drop i).take n) := if_pos h

/-- Bytes that go past the buffer are read outside. -/
private theorem readBytes_of_lt (h : buf.length < i + n) : readBytes buf i n = .error .outOfBounds
    :=
  if_neg (by omega)

/-- The checksum of a header inside of the buffer. -/
private theorem jffs2DirentCrc_of_le (h : i + 32 ≤ buf.length) :
    jffs2DirentCrc buf i = .ok (Crc.accumulate 0 ((buf.drop i).take 32)).toNat := by
  have hrange : readBytes buf i (sizeofRawDirent - 8) = .ok ((buf.drop i).take 32) := if_pos h
  rw [jffs2DirentCrc, hrange]
  rfl

/-- The check of a header inside of the buffer. -/
private theorem jffs2DirentValid_inside (h : HeaderInside e buf i) :
    jffs2DirentValid e buf i = .ok (decide (IsDirent e buf i)) := by
  obtain ⟨h2, h⟩ := h
  rw [jffs2DirentValid, readField_of_le h2, ok_bind]
  -- each check that fails ends the reading, and the node is none
  by_cases hmagic : fieldAt e 2 buf i = jffs2MagicBitmask
  · obtain ⟨h4, h⟩ := h hmagic
    rw [if_pos hmagic, readField_of_le (by omega), ok_bind]
    by_cases htype : fieldAt e 2 buf (i + 2) = jffs2NodetypeDirent
    · obtain ⟨h24, h⟩ := h htype
      rw [if_pos htype, readField_of_le (by omega), ok_bind]
      by_cases hino : fieldAt e 4 buf (i + 20) = 0
      · rw [if_pos hino, decide_eq_false fun hd => hd.2.2.1 hino]
        rfl
      · have h36 := h hino
        rw [if_neg hino, readField_of_le (by omega), ok_bind, jffs2DirentCrc_of_le (by omega)]
        simp only [IsDirent, hmagic, htype, hino, true_and, ne_eq, not_false_eq_true]
        rfl
    · rw [if_neg htype, decide_eq_false fun hd => htype hd.2.1]
      rfl
  · rw [if_neg hmagic, decide_eq_false fun hd => hmagic hd.1]
    rfl

/-- The check of a header that goes past the buffer reads outside. -/
private theorem jffs2DirentValid_outside (h : ¬HeaderInside e buf i) :
    jffs2DirentValid e buf i = .error .outOfBounds := by
  rw [HeaderInside] at h
  rw [jffs2DirentValid]
  -- each field is read only after the checks on those before it, so one of the reads is out
  by_cases h2 : i + 2 ≤ buf.length
  swap
  · rw [readField_of_lt (by omega)]
    rfl
  rw [readField_of_le h2, ok_bind]
  by_cases hmagic : fieldAt e 2 buf i = jffs2MagicBitmask
  swap
  · exact absurd ⟨h2, fun hm => absurd hm hmagic⟩ h
  rw [if_pos hmagic]
  by_cases h4 : i + 4 ≤ buf.length
  swap
  · rw [readField_of_lt (by omega)]
    rfl
  rw [readField_of_le (by omega), ok_bind]
  by_cases htype : fieldAt e 2 buf (i + 2) = jffs2NodetypeDirent
  swap
  · exact absurd ⟨h2, fun _ => ⟨h4, fun ht => absurd ht htype⟩⟩ h
  rw [if_pos htype]
  by_cases h24 : i + 24 ≤ buf.length
  swap
  · rw [readField_of_lt (by omega)]
    rfl
  rw [readField_of_le (by omega), ok_bind]
  by_cases hino : fieldAt e 4 buf (i + 20) = 0
  · exact absurd ⟨h2, fun _ => ⟨h4, fun _ => ⟨h24, fun hne => absurd hino hne⟩⟩⟩ h
  -- the last field read is the checksum
  · have h36 : buf.length < i + 36 := by
      by_contra hle
      exact h ⟨h2, fun _ => ⟨h4, fun _ => ⟨h24, fun _ => by omega⟩⟩⟩
    rw [if_neg hino, readField_of_lt (by omega)]
    rfl

/-- The header of a directory entry is inside the block. -/
theorem IsDirent.le (hdirent : IsDirent e buf i) (h : HeaderInside e buf i) :
    i + 36 ≤ buf.length :=
  (((h.2 hdirent.1).2 hdirent.2.1).2 hdirent.2.2.1)

/-! ### A visit of a node -/

/-- As much of the name of a directory entry as is compared is inside the block. -/
def NameInside (name buf : List UInt8) (i : Nat) : Prop :=
  i + 40 + openwrtName.length ≤ buf.length ∧
    (¬Begins buf i openwrtName → i + 40 + name.length ≤ buf.length)

variable (a : Search)

/-- What is looked at to tell what a node is is inside the block. -/
def NodeInside (buf : List UInt8) (i : Nat) : Prop :=
  HeaderInside a.endian buf i ∧ (IsDirent a.endian buf i → NameInside a.name buf i)

/-- An entry that is taken for the mark of OpenWrt -/
def IsMark (buf : List UInt8) (i : Nat) : Prop :=
  IsDirent a.endian buf i ∧ Begins buf i openwrtName

/-- An entry that is taken for the file -/
def IsTarget (buf : List UInt8) (i : Nat) : Prop :=
  IsDirent a.endian buf i ∧ ¬Begins buf i openwrtName ∧ Begins buf i a.name

/-- Where the next node is looked for. -/
def nodeEnd (buf : List UInt8) (i : Nat) : Nat :=
  if IsDirent a.endian buf i then (i + fieldAt a.endian 4 buf (i + 4) + 3) % 2 ^ 32 / 4 * 4
  else (i + 4) % 2 ^ 32

instance (name buf : List UInt8) (i : Nat) : Decidable (NameInside name buf i) :=
  inferInstanceAs (Decidable (_ ∧ _))

instance (buf : List UInt8) (i : Nat) : Decidable (NodeInside a buf i) :=
  inferInstanceAs (Decidable (_ ∧ _))

instance (buf : List UInt8) (i : Nat) : Decidable (IsMark a buf i) :=
  inferInstanceAs (Decidable (_ ∧ _))

instance (buf : List UInt8) (i : Nat) : Decidable (IsTarget a buf i) :=
  inferInstanceAs (Decidable (_ ∧ _))

variable {a} {b : Block} {w : Walk}

/-- Behind a dirent the walk goes on at its end. -/
private theorem advance_eq (h : w.blockOffs.toNat + 36 ≤ buf.length)
    (hdirent : IsDirent a.endian buf w.blockOffs.toNat) :
    ∃ next, advance a buf w.blockOffs = .ok next ∧ next.toNat = nodeEnd a buf w.blockOffs.toNat := by
  rw [advance, readField_of_le (by omega), ok_bind, nodeEnd, if_pos hdirent]
  refine ⟨_, rfl, ?_⟩
  rw [UInt32.toNat_and, UInt32.toNat_add, UInt32.toNat_add, UInt32.toNat_ofNat']
  have hand := and_complement (b := 2) (Nat.mod_lt
    (w.blockOffs.toNat + fieldAt a.endian 4 buf (w.blockOffs.toNat + 4) + 3)
    (Nat.two_pow_pos 32)) (by omega)
  rw [Nat.add_mod_mod, Nat.mod_add_mod]
  exact hand

/-- Visiting a node that is not inside of the block reads outside. -/
theorem visitNode_outside (h : ¬NodeInside a b.buf w.blockOffs.toNat) :
    visitNode a b w = .error .outOfBounds := by
  rw [visitNode]
  by_cases hheader : HeaderInside a.endian b.buf w.blockOffs.toNat
  swap
  · simp only [jffs2DirentValid_outside hheader]
    rfl
  by_cases hdirent : IsDirent a.endian b.buf w.blockOffs.toNat
  swap
  · exact absurd ⟨hheader, fun hd => absurd hd hdirent⟩ h
  simp only [jffs2DirentValid_inside hheader, decide_eq_true hdirent, ok_bind, if_true]
  have hname : ¬NameInside a.name b.buf w.blockOffs.toNat := fun hn => h ⟨hheader, fun _ => hn⟩
  -- the node is a whole entry, so it is one of the two names that is cut off
  by_cases hopen : w.blockOffs.toNat + 40 + openwrtName.length ≤ b.buf.length
  · have hbegins : ¬Begins b.buf w.blockOffs.toNat openwrtName :=
      fun hb => hname ⟨hopen, fun hnb => absurd hb hnb⟩
    have hlt : b.buf.length < w.blockOffs.toNat + 40 + a.name.length := by
      by_contra hle
      exact hname ⟨hopen, fun _ => by omega⟩
    rw [readBytes_of_le (by rw [sizeofRawDirent]; omega), ok_bind,
      if_neg (show ¬(_ = _) from hbegins), readBytes_of_lt (by rw [sizeofRawDirent]; omega)]
    rfl
  · rw [readBytes_of_lt (by rw [sizeofRawDirent]; omega)]
    rfl

/-- Another node is passed; it may be the mark. -/
theorem visitNode_pass (h : NodeInside a b.buf w.blockOffs.toNat)
    (htarget : ¬IsTarget a b.buf w.blockOffs.toNat) :
    ∃ w', visitNode a b w = .ok (.inr w') ∧
      w'.blockOffs.toNat = nodeEnd a b.buf w.blockOffs.toNat ∧
      w'.valid = (w.valid || decide (IsMark a b.buf w.blockOffs.toNat)) := by
  obtain ⟨hheader, hname⟩ := h
  rw [visitNode]
  simp only [jffs2DirentValid_inside hheader, ok_bind]
  by_cases hdirent : IsDirent a.endian b.buf w.blockOffs.toNat
  · obtain ⟨hopen, hname⟩ := hname hdirent
    obtain ⟨next, hadvance, hnext⟩ := advance_eq (hdirent.le hheader) hdirent
    rw [decide_eq_true hdirent, if_pos rfl,
      readBytes_of_le (by rw [sizeofRawDirent]; omega), ok_bind]
    -- a mark and an entry of another name are passed alike, only the mark is noted
    by_cases hmark : Begins b.buf w.blockOffs.toNat openwrtName
    · rw [if_pos (show _ = _ from hmark), hadvance]
      exact ⟨_, rfl, hnext, by simp [IsMark, hdirent, hmark]⟩
    · have hother : ¬Begins b.buf w.blockOffs.toNat a.name := fun hb => htarget ⟨hdirent, hmark, hb⟩
      have hle := hname hmark
      rw [if_neg (show ¬(_ = _) from hmark), readBytes_of_le (by rw [sizeofRawDirent]; omega), ok_bind,
        if_neg (show ¬(_ = _) from hother), hadvance]
      exact ⟨_, rfl, hnext, by simp [IsMark, hmark]⟩
  · rw [decide_eq_false hdirent, if_neg (by decide)]
    refine ⟨_, rfl, ?_, by simp [IsMark, hdirent]⟩
    rw [nodeEnd, if_neg hdirent, UInt32.toNat_add]
    rfl

/-! ### The copy of a name -/

/-- A copy of a string stays inside a buffer if its bytes are there, or a zero that ends it. -/
private theorem kstrndup_iff (memory : Bool) (max : Nat) {pos : Nat} (hpos : pos ≤ buf.length) :
    (∃ s, kstrndup memory buf pos max = .ok s) ↔
      pos + max ≤ buf.length ∨ ∃ k, pos ≤ k ∧ buf[k]? = some 0 := by
  rw [kstrndup]
  let l := (buf.drop pos).take max
  have hlen : l.length = min max (buf.length - pos) := by
    rw [List.length_take, List.length_drop]
  have hinit : l.takeWhile (· ≠ 0) <+: l := List.takeWhile_prefix _
  -- the copy stops at the bound or at a zero, and reads no further than the buffer
  have hsome : (∃ s : Option (List UInt8),
      (if (l.takeWhile (· ≠ 0)).length = max ∨ pos + (l.takeWhile (· ≠ 0)).length < buf.length then
        Except.ok (if memory then some (l.takeWhile (· ≠ 0)) else none)
      else .error Fault.outOfBounds) = .ok s) ↔
      (l.takeWhile (· ≠ 0)).length = max ∨ pos + (l.takeWhile (· ≠ 0)).length < buf.length := by
    split
    · next h => exact ⟨fun _ => h, fun _ => ⟨_, rfl⟩⟩
    · next h =>
      constructor
      · rintro ⟨s, hs⟩
        cases hs
      · exact fun hn => absurd hn h
  refine hsome.trans ?_
  -- without a zero in the window the whole window is read
  by_cases hall : ∀ b ∈ l, b ≠ 0
  · have hself : l.takeWhile (· ≠ 0) = l :=
      List.takeWhile_eq_self_iff.mpr fun b hb => decide_eq_true (hall b hb)
    rw [hself, hlen]
    constructor
    · intro h
      omega
    · rintro (h | ⟨k, hk, hzero⟩)
      · omega
      · -- the zero is behind the bytes of the string
        obtain ⟨hlt, hget⟩ := List.getElem?_eq_some_iff.mp hzero
        by_cases hin : k - pos < max
        · refine absurd rfl (hall 0 (List.mem_iff_getElem?.mpr ⟨k - pos, ?_⟩))
          rw [List.getElem?_take_of_lt hin, List.getElem?_drop, Nat.add_sub_cancel' hk, hzero]
        · omega
  -- a zero in the window ends the copy there
  · obtain ⟨b, hb, hzero⟩ : ∃ b ∈ l, b = 0 := by
      simpa using hall
    have hlt : (l.takeWhile (· ≠ 0)).length < l.length := by
      refine Nat.lt_of_le_of_ne hinit.length_le fun heq => ?_
      exact hall fun c hc => of_decide_eq_true
        (List.takeWhile_eq_self_iff.mp (hinit.eq_of_length heq) c hc)
    obtain ⟨j, hj⟩ := List.mem_iff_getElem?.mp hb
    obtain ⟨hjlt, -⟩ := List.getElem?_eq_some_iff.mp hj
    rw [List.getElem?_take_of_lt (by omega), List.getElem?_drop, hzero] at hj
    exact ⟨fun _ => .inr ⟨pos + j, Nat.le_add_right pos j, hj⟩, fun _ => .inr (by omega)⟩

/-- The copy of the name, where there is one, stays inside the block. -/
def CopyInside (a : Search) (buf : List UInt8) (i : Nat) : Prop :=
  a.outName = true →
    i + 40 + nsizeAt a.endian buf i ≤ buf.length ∨ ∃ k, i + 40 ≤ k ∧ buf[k]? = some 0

/-- The name is copied from inside of the block exactly if it ends there. -/
theorem copyName_iff (h : i + 40 ≤ buf.length) :
    (∃ s, copyName a buf i (nsizeAt a.endian buf i) = .ok s) ↔ CopyInside a buf i := by
  rw [copyName, CopyInside]
  cases a.outName with
  | false => simp
  | true =>
    have hiff := kstrndup_iff a.memory (nsizeAt a.endian buf i) h
    simpa [sizeofRawDirent] using hiff

/-- The node that is searched for ends the walk. -/
theorem visitNode_target (h : NodeInside a b.buf w.blockOffs.toNat)
    (htarget : IsTarget a b.buf w.blockOffs.toNat) :
    visitNode a b w =
      if w.valid then do
        let nsize := nsizeAt a.endian b.buf w.blockOffs.toNat
        let outName ← copyName a b.buf w.blockOffs.toNat nsize
        let file := { offs := b.cursor.offs, outName := outName, outNameLen := nsize }
        return .inl { reads := b.cursor.reads + 2, res := .ok file }
      else .ok (.inl { reads := b.cursor.reads + 2, res := .error .einval }) := by
  obtain ⟨hheader, hname⟩ := h
  obtain ⟨hdirent, hmark, hbegins⟩ := htarget
  obtain ⟨hopen, hname⟩ := hname hdirent
  have hle := hname hmark
  have hheaderLe := hdirent.le hheader
  rw [visitNode]
  simp only [jffs2DirentValid_inside hheader, decide_eq_true hdirent, ok_bind, if_true]
  rw [readBytes_of_le (by rw [sizeofRawDirent]; omega), ok_bind,
    if_neg (show ¬(_ = _) from hmark), readBytes_of_le (by rw [sizeofRawDirent]; omega), ok_bind, if_pos (show _ = _ from hbegins),
    readField_of_le (by omega)]
  rfl

end HandsomeMod.Native.BcmWfi
