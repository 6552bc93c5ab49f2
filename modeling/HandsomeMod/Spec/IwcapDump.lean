import HandsomeMod.ForStd.Ring
import HandsomeMod.Native.Iwcap

/-!
# What a dump of the ring has

A ring whose slots are all in its memory holds, slot by slot, the last frames that were stored, and in
the slots that were not written what `malloc` returned, of which `ringbuf_init` clears less than the
slots. A dump has the last frames in order, and in front of them each slot that was not written and has
a length.
-/

namespace HandsomeMod.Native.Iwcap

open ForStd

variable {e : Endian} {w : Nat} {m : Mem} {r r' : Ringbuf}

/-- The arguments of `ringbuf_init` for a ring of one slot or more, all of them in 32 bits. -/
structure Slots where
  numItem : UInt32
  lenItem : UInt16
  numItem_pos : 0 < numItem.toNat
  lenItem_pos : 0 < lenItem.toNat
  fits : numItem.toNat * (lenItem.toNat + entrySize) < 2 ^ 32

namespace Slots

variable (s : Slots)

/-- The number of slots. -/
def num : Nat := s.numItem.toNat

/-- The size of a slot. -/
def slen : Nat := s.lenItem.toNat + entrySize

/-- A ring has a slot. -/
private theorem num_pos : 0 < s.num := s.numItem_pos

/-- The size of the ring has 32 bits. -/
private theorem num_mul_slen : s.num * s.slen < 2 ^ 32 := s.fits

/-- A slot is longer than its header. -/
private theorem slen_pos : 16 < s.slen := by
  have h := s.lenItem_pos
  rw [slen, entrySize]
  omega

/-- The slots are fewer than `2 ^ 28`. -/
private theorem num_lt : s.num < 2 ^ 28 := by
  have hmul : s.num * 16 ≤ s.num * s.slen := Nat.mul_le_mul_left _ s.slen_pos.le
  have hlt := s.num_mul_slen
  omega

/-- The length of a slot has 32 bits. -/
private theorem toNat_slen : (UInt32.ofNat s.slen).toNat = s.slen := by
  have hlt := s.lenItem.toNat_lt
  have hsmall : s.slen < 2 ^ 32 := by
    rw [slen, entrySize]
    omega
  exact UInt32.toNat_ofNat_of_lt' hsmall

/-- A slot is in the memory. -/
private theorem slot_le {k : Nat} (hk : k < s.num) : k * s.slen + s.slen ≤ s.num * s.slen := by
  have hmul : (k + 1) * s.slen ≤ s.num * s.slen := Nat.mul_le_mul_right _ hk
  rwa [Nat.succ_mul] at hmul

end Slots

/-! ### What is written for a frame -/

/-- A word has four bytes. -/
private theorem length_word (e : Endian) (v : UInt32) : (word e v).length = 4
    := length_bytesAt _ _ _

/-- A word that was stored is read again. -/
private theorem ofWord_word (e : Endian) (v : UInt32) : ofWord e (word e v) = v.toNat := by
  have hload : e.load 4 (fun i => (word e v).getD i 0) = e.load 4 (e.store 4 v.toNat) := by
    apply e.load_congr
    intro i hi
    rw [word, getD_bytesAt _ _ hi, Nat.zero_add]
  rw [ofWord, hload, e.load_store v.toNat_lt]

/-- The bytes of a slot. -/
def slotBytes (e : Endian) (lenItem : UInt16) (f : Frame) : List UInt8 :=
  word e (UInt32.ofNat (f.len lenItem)) ++ word e (UInt32.ofNat f.pktlen) ++ word e f.sec ++
    word e f.usec ++ f.pktbuf.take (f.len lenItem) ++
    List.replicate (lenItem.toNat - f.len lenItem) 0

/-- What is stored of a frame fits the slot and is captured. -/
theorem Frame.len_le (lenItem : UInt16) (f : Frame) :
    f.len lenItem ≤ lenItem.toNat ∧ f.len lenItem ≤ f.pktlen := by
  rw [Frame.len]
  split <;> omega

/-- As many bytes are copied as the length says. -/
private theorem length_take_len (lenItem : UInt16) (f : Frame) :
    (f.pktbuf.take (f.len lenItem)).length = f.len lenItem :=
  List.length_take_of_le (f.len_le lenItem).2

/-- A frame fills its slot. -/
private theorem length_slotBytes (e : Endian) (lenItem : UInt16) (f : Frame) :
    (slotBytes e lenItem f).length = lenItem.toNat + entrySize := by
  have hlen := (f.len_le lenItem).1
  simp only [slotBytes, List.length_append, length_word, length_take_len, List.length_replicate,
    entrySize]
  omega

/-- Two writes that do not meet. -/
private theorem writeBytes_comm (m : Mem) {p q : Nat} (l l' : List UInt8) (h : p + l.length ≤ q) :
    writeBytes (writeBytes m q l') p l = writeBytes (writeBytes m p l) q l' := by
  funext i
  simp only [writeBytes]
  split
  · rw [if_neg (by omega)]
  · rfl

/-- A write into what was written before. -/
private theorem writeBytes_inside (m : Mem) (p : Nat) (a c : List UInt8) {b d : List UInt8}
    (h : b.length = d.length) :
    writeBytes (writeBytes m p (a ++ b ++ c)) (p + a.length) d = writeBytes m p (a ++ d ++ c) := by
  have hlen : p + (a ++ b).length = p + (a ++ d).length := by
    rw [List.length_append, List.length_append, h]
  rw [← writeBytes_append, ← writeBytes_append m p a b, writeBytes_comm _ _ _ (by
      rw [List.length_append]
      omega),
    writeBytes_writeBytes _ _ h, writeBytes_append, hlen, writeBytes_append]

/-- A store inside of the memory. -/
private theorem store_eq {p : Nat} {l : List UInt8} (h : p + l.length ≤ r.size) :
    r.store p l = .ok { r with buf := writeBytes r.buf p l } := by
  rw [Ringbuf.store, if_pos h]

/-- A fetch inside of the memory. -/
private theorem fetch_eq {p n : Nat} (h : p + n ≤ r.size) : r.fetch p n = .ok (bytesAt r.buf p n)
    := by
  rw [Ringbuf.fetch, if_pos h]

/-- The ring is one of these slots. -/
structure IsRing (s : Slots) (r : Ringbuf) : Prop where
  len : r.len = s.numItem
  slen : r.slen = UInt32.ofNat s.slen
  size : r.size = s.num * s.slen

variable {s : Slots}

/-- The position of a slot, which does not wrap. -/
private theorem mul_slen {k : UInt32} (hk : k.toNat < s.num) :
    (k * UInt32.ofNat s.slen).toNat = k.toNat * s.slen := by
  have hslot := s.slot_le hk
  have hfits := s.num_mul_slen
  rw [UInt32.toNat_mul, s.toNat_slen, Nat.mod_eq_of_lt (by omega)]

/-- The remainder is taken by a length that is not zero. -/
theorem IsRing.len_ne (h : IsRing s r) : r.len ≠ 0 := by
  intro hzero
  have hpos := s.num_pos
  rw [Slots.num, ← h.len, hzero] at hpos
  exact Nat.lt_irrefl 0 hpos

/-- What `ringbuf_add` leaves in a slot. -/
def addBytes (e : Endian) (s : Slots) (sec usec : UInt32) : List UInt8 :=
  List.replicate 4 0 ++ List.replicate 4 0 ++ word e sec ++ word e usec ++
    List.replicate s.lenItem.toNat 0

/-- `ringbuf_add` takes the next slot and writes its header. -/
private theorem add_eq {sec usec : UInt32} (h : IsRing s r) (hk : r.fill.toNat < s.num) :
    r.add e sec usec = .ok (r.fill.toNat * s.slen,
      { r with
        fill := (r.fill + 1) % r.len
        buf := writeBytes r.buf (r.fill.toNat * s.slen) (addBytes e s sec usec) }) := by
  have hp : (r.fill * r.slen).toNat = r.fill.toNat * s.slen := by
    rw [h.slen, mul_slen hk]
  have hslen : r.slen.toNat = s.slen := by
    rw [h.slen, s.toNat_slen]
  have hslot := s.slot_le hk
  have hs : s.slen = s.lenItem.toNat + 16 := rfl
  rw [← h.size] at hslot
  generalize hpos : r.fill.toNat * s.slen = p at hp hslot
  -- first all of the slot is cleared
  have hclear : List.replicate s.slen (0 : UInt8) =
      List.replicate 4 0 ++ List.replicate 4 0 ++ List.replicate 4 0 ++
        (List.replicate 4 0 ++ List.replicate s.lenItem.toNat 0) := by
    simp only [List.replicate_append_replicate, hs]
    congr 1
    omega
  have hsec := writeBytes_inside r.buf p (List.replicate 4 0 ++ List.replicate 4 0)
    (List.replicate 4 0 ++ List.replicate s.lenItem.toNat 0) (b := List.replicate 4 0)
    (d := word e sec) (by rw [List.length_replicate, length_word])
  have husec := writeBytes_inside r.buf p (List.replicate 4 0 ++ List.replicate 4 0 ++ word e sec)
    (List.replicate s.lenItem.toNat 0) (b := List.replicate 4 0)
    (d := word e usec) (by rw [List.length_replicate, length_word])
  simp only [Ringbuf.add, if_neg h.len_ne, hp, hslen]
  rw [store_eq (by rw [List.length_replicate]; exact hslot), ok_bind,
    store_eq (by rw [length_word]; simp only; omega), ok_bind,
    store_eq (by rw [length_word]; simp only; omega), ok_bind]
  simp only [List.length_append, List.length_replicate, length_word, Nat.reduceAdd,
    List.append_assoc] at hclear hsec husec
  simp only [hclear, hsec, husec, addBytes, List.append_assoc]
  rfl

/-- The capture loop stores a frame in the next slot. -/
private theorem capture_eq {f : Frame} (h : IsRing s r) (hk : r.fill.toNat < s.num) :
    r.capture e s.lenItem f =
      .ok { r with
            fill := (r.fill + 1) % r.len
            buf := writeBytes r.buf (r.fill.toNat * s.slen) (slotBytes e s.lenItem f) } := by
  have hslot := s.slot_le hk
  have hle := (f.len_le s.lenItem).1
  have hs : s.slen = s.lenItem.toNat + 16 := rfl
  rw [← h.size] at hslot
  rw [Ringbuf.capture, add_eq h hk, ok_bind]
  generalize r.fill.toNat * s.slen = p at hslot
  -- the zeroed slot is cut up at the places the three stores write to
  have hrest : List.replicate s.lenItem.toNat (0 : UInt8) = List.replicate (f.len s.lenItem) 0 ++
      List.replicate (s.lenItem.toNat - f.len s.lenItem) 0 := by
    rw [List.replicate_append_replicate, Nat.add_sub_cancel' hle]
  -- original length, captured length and contents, each over the zeros of its field
  have holen := writeBytes_inside r.buf p (List.replicate 4 0)
    (word e f.sec ++ word e f.usec ++ List.replicate s.lenItem.toNat 0) (b := List.replicate 4 0)
    (d := word e (UInt32.ofNat f.pktlen)) (by rw [List.length_replicate, length_word])
  have hlen := writeBytes_inside r.buf p [] (word e (UInt32.ofNat f.pktlen) ++
    word e f.sec ++ word e f.usec ++ List.replicate s.lenItem.toNat 0) (b := List.replicate 4 0)
    (d := word e (UInt32.ofNat (f.len s.lenItem))) (by rw [List.length_replicate, length_word])
  have hcontent := writeBytes_inside r.buf p (word e (UInt32.ofNat (f.len s.lenItem)) ++
    word e (UInt32.ofNat f.pktlen) ++ word e f.sec ++ word e f.usec)
    (List.replicate (s.lenItem.toNat - f.len s.lenItem) 0) (b := List.replicate (f.len s.lenItem) 0)
    (d := f.pktbuf.take (f.len s.lenItem)) (by rw [List.length_replicate, length_take_len])
  simp only
  rw [store_eq (by rw [length_word]; simp only; omega), ok_bind,
    store_eq (by rw [length_word]; simp only; omega), ok_bind,
    store_eq (by rw [length_take_len, entrySize]; simp only; omega)]
  simp only [List.length_append, List.length_replicate, length_word, Nat.reduceAdd,
    List.append_assoc, List.nil_append, List.length_nil, Nat.add_zero] at holen hlen hcontent
  simp only [addBytes, entrySize, List.append_assoc]
  rw [holen, hlen, hrest, hcontent]
  simp only [slotBytes, List.append_assoc]

/-! ### The frames in the ring -/

/-- The ring after these frames, in memory that was `m` before. -/
structure Holds (e : Endian) (s : Slots) (m : Mem) (fs : List Frame) (r : Ringbuf) : Prop where
  ring : IsRing s r
  fill : r.fill.toNat = fs.length % s.num
  written : ∀ p, (hp : p < fs.length) → fs.length ≤ p + s.num →
    bytesAt r.buf (p % s.num * s.slen) s.slen = slotBytes e s.lenItem fs[p]
  unwritten : ∀ k, fs.length ≤ k → k < s.num →
    bytesAt r.buf (k * s.slen) s.slen = bytesAt m (k * s.slen) s.slen

/-- The next slot is a slot of the ring. -/
theorem Holds.fill_lt {fs : List Frame} (h : Holds e s m fs r) : r.fill.toNat < s.num := by
  rw [h.fill]
  exact Nat.mod_lt _ s.num_pos

/-- Another slot does not change. -/
private theorem bytesAt_other_slot {k k' : Nat} {l : List UInt8} (hne : k ≠ k')
    (hl : l.length = s.slen) :
    bytesAt (writeBytes m (k * s.slen) l) (k' * s.slen) s.slen = bytesAt m (k' * s.slen) s.slen := by
  rcases Nat.lt_or_gt_of_ne hne with hlt | hgt
  · have hmul : (k + 1) * s.slen ≤ k' * s.slen := Nat.mul_le_mul_right _ hlt
    rw [Nat.succ_mul] at hmul
    exact bytesAt_writeBytes_after _ _ _ (by omega)
  · have hmul : (k' + 1) * s.slen ≤ k * s.slen := Nat.mul_le_mul_right _ hgt
    rw [Nat.succ_mul] at hmul
    exact bytesAt_writeBytes_before _ _ (by omega)

/-- The next slot goes around the ring. -/
private theorem toNat_next_fill {fill : UInt32} {n : Nat} (hfill : fill.toNat = n % s.num) :
    ((fill + 1) % s.numItem).toNat = (n + 1) % s.num := by
  have hlt := Nat.mod_lt n s.num_pos
  have hnum := s.num_lt
  have hone : (1 : UInt32).toNat = 1 := rfl
  have hsmall : (n % s.num + 1) % 2 ^ 32 = n % s.num + 1 := Nat.mod_eq_of_lt (by omega)
  rw [UInt32.toNat_mod, UInt32.toNat_add, hfill, hone, hsmall]
  exact Nat.mod_add_mod n s.num 1

/-- One more frame takes the place of the oldest one. -/
theorem Holds.capture {fs : List Frame} (h : Holds e s m fs r) (f : Frame) :
    ∃ r', r.capture e s.lenItem f = .ok r' ∧ Holds e s m (fs ++ [f]) r' := by
  refine ⟨_, capture_eq h.ring h.fill_lt, ?_⟩
  have hslot : (slotBytes e s.lenItem f).length = s.slen := length_slotBytes _ _ _
  have hlength : (fs ++ [f]).length = fs.length + 1 := by
    rw [List.length_append, List.length_singleton]
  rw [h.ring.len, h.fill]
  constructor
  · exact ⟨rfl, h.ring.slen, h.ring.size⟩
  · rw [hlength]
    exact toNat_next_fill h.fill
  · intro p hp hrecent
    rw [hlength] at hp hrecent
    -- a frame among the last ones is in another slot, or is this one
    rcases Nat.lt_succ_iff_lt_or_eq.mp hp with hlt | rfl
    · have hne : fs.length % s.num ≠ p % s.num :=
        fun heq => Nat.ne_of_gt hlt (Ring.eq_of_mod_eq heq (by omega) (by omega))
      rw [bytesAt_other_slot hne hslot, h.written p hlt (by omega), List.getElem_append_left hlt]
    · rw [bytesAt_writeBytes_eq _ hslot, List.getElem_append_right (le_refl _)]
      simp only [Nat.sub_self, List.getElem_singleton]
  · intro k hk hnum
    rw [hlength] at hk
    have hne : fs.length % s.num ≠ k := by
      rw [Nat.mod_eq_of_lt (by omega)]
      omega
    rw [bytesAt_other_slot hne hslot, h.unwritten k (by omega) hnum]

/-- The frames that come in are stored one after the other. -/
theorem Holds.run {fs : List Frame} (filterData filterBeacon : Bool) (h : Holds e s m fs r)
    (frames : List Frame) :
    ∃ r', r.run e s.lenItem filterData filterBeacon frames = .ok r' ∧
      Holds e s m (fs ++ frames.filter (·.kept filterData filterBeacon)) r' := by
  -- only a frame that the filters keep is captured
  induction frames generalizing fs r with
  | nil => exact ⟨r, rfl, by rwa [List.filter_nil, List.append_nil]⟩
  | cons f frames ih =>
    cases hkept : f.kept filterData filterBeacon with
    | true =>
      obtain ⟨r₁, hcapture, hholds⟩ := h.capture f
      obtain ⟨r₂, hrun, hall⟩ := ih hholds
      refine ⟨r₂, ?_, ?_⟩
      · rw [Ringbuf.run, if_pos hkept, hcapture]
        exact hrun
      · rwa [List.filter_cons_of_pos hkept, List.append_cons]
    | false =>
      obtain ⟨r₂, hrun, hall⟩ := ih h
      refine ⟨r₂, ?_, ?_⟩
      · rw [Ringbuf.run, if_neg (by rw [hkept]; decide)]
        exact hrun
      · rwa [List.filter_cons_of_neg (by rw [hkept]; decide)]

/-- The memory after `ringbuf_init`. -/
def cleared (s : Slots) (m : Mem) : Mem :=
  writeBytes m 0 (List.replicate (s.num * s.lenItem.toNat) 0)

/-- The ring that `ringbuf_init` makes. -/
def initial (s : Slots) (m : Mem) : Ringbuf where
  len := s.numItem
  fill := 0
  slen := UInt32.ofNat s.slen
  size := s.num * s.slen
  buf := cleared s m

/-- `ringbuf_init` clears a part of the memory that it got. -/
private theorem ringbufInit_eq (s : Slots) (m : Mem) (hw : 32 ≤ w) :
    ringbufInit w (some m) s.numItem s.lenItem = .ok (some (initial s m)) := by
  have hfits := s.num_mul_slen
  have hpow : 2 ^ 32 ≤ 2 ^ w := Nat.pow_le_pow_right (by decide) hw
  have hpos := s.lenItem_pos
  have hmul : s.num * s.lenItem.toNat ≤ s.num * s.slen :=
    Nat.mul_le_mul_left _ (Nat.le_add_right _ _)
  -- the size of the ring does not wrap where `size_t` has at least 32 bits
  have hsize : s.numItem.toNat * (s.lenItem.toNat + entrySize) % 2 ^ w = s.num * s.slen :=
    Nat.mod_eq_of_lt (hfits.trans_le hpow)
  -- and neither does the length that is cleared
  have hclear : s.numItem.toNat * s.lenItem.toNat % 2 ^ 32 = s.num * s.lenItem.toNat :=
    Nat.mod_eq_of_lt (hmul.trans_lt hfits)
  have hlen : ¬ s.lenItem ≤ 0 := by
    rw [UInt16.le_iff_toNat_le]
    exact Nat.not_le.mpr hpos
  rw [ringbufInit, if_neg hlen, hsize, hclear]
  simp only
  rw [store_eq (by rw [List.length_replicate]; simp only; omega), ok_bind]
  rfl

/-- At first the ring holds no frame. -/
private theorem holds_initial (e : Endian) (s : Slots) (m : Mem) :
    Holds e s (cleared s m) [] (initial s m) where
  ring := ⟨rfl, rfl, rfl⟩
  fill := (Nat.zero_mod _).symm
  written p hp := absurd hp (Nat.not_lt_zero p)
  unwritten _ _ _ := rfl

/-! ### The dump -/

/-- The slot that a turn of the dump looks at. -/
def slotOf (s : Slots) (r : Ringbuf) (i : Nat) : Nat := (r.fill.toNat + i) % s.num

/-- `ringbuf_get` gives the slot if its length is positive. -/
private theorem get_eq {i : Nat} (h : IsRing s r) (hfill : r.fill.toNat < s.num) (hi : i < s.num) :
    r.get e i = .ok (if ofWord e (bytesAt r.buf (slotOf s r i * s.slen) 4) > 0 then
      some (slotOf s r i * s.slen) else none) := by
  have hnum := s.num_lt
  -- neither the index nor the offset wraps
  have hindex : ((r.fill + UInt32.ofNat i) % r.len).toNat = slotOf s r i := by
    have hi' : (UInt32.ofNat i).toNat = i := UInt32.toNat_ofNat_of_lt' (by
      have hsize : UInt32.size = 2 ^ 32 := rfl
      omega)
    have hsmall : (r.fill.toNat + i) % 2 ^ 32 = r.fill.toNat + i := Nat.mod_eq_of_lt (by omega)
    rw [UInt32.toNat_mod, UInt32.toNat_add, hi', hsmall, h.len]
    rfl
  have hslot := s.slot_le (Nat.mod_lt (r.fill.toNat + i) s.num_pos)
  have hslen := s.slen_pos
  have hp : ((r.fill + UInt32.ofNat i) % r.len * r.slen).toNat = slotOf s r i * s.slen := by
    rw [h.slen, mul_slen (by rw [hindex]; exact Nat.mod_lt _ s.num_pos), hindex]
  rw [← slotOf, ← h.size] at hslot
  rw [Ringbuf.get, if_neg h.len_ne]
  simp only
  rw [hp, fetch_eq (by omega), ok_bind]
  rfl

/-- What a dump has for a frame. -/
def recordOf (lenItem : UInt16) (f : Frame) : Record where
  sec := f.sec.toNat
  usec := f.usec.toNat
  inclLen := f.len lenItem
  origLen := f.pktlen
  content := f.pktbuf.take (f.len lenItem)

/-- The fields of a slot that has a frame. -/
structure SlotFields (e : Endian) (lenItem : UInt16) (f : Frame) (m : Mem) (p : Nat) : Prop where
  len : bytesAt m p 4 = word e (UInt32.ofNat (f.len lenItem))
  olen : bytesAt m (p + 4) 4 = word e (UInt32.ofNat f.pktlen)
  sec : bytesAt m (p + 8) 4 = word e f.sec
  usec : bytesAt m (p + 12) 4 = word e f.usec
  content : bytesAt m (p + 16) (f.len lenItem) = f.pktbuf.take (f.len lenItem)

/-- The fields of a slot that holds a frame. -/
private theorem slotFields_of_slotBytes {lenItem : UInt16} {f : Frame} {p n : Nat}
    (hn : n = lenItem.toNat + entrySize) (h : bytesAt m p n = slotBytes e lenItem f) :
    SlotFields e lenItem f m p := by
  rw [hn, ← length_slotBytes e lenItem f] at h
  obtain ⟨hrest, -⟩ := bytesAt_append_iff.mp h
  obtain ⟨hrest, hcontent⟩ := bytesAt_append_iff.mp hrest
  obtain ⟨hrest, husec⟩ := bytesAt_append_iff.mp hrest
  obtain ⟨hrest, hsec⟩ := bytesAt_append_iff.mp hrest
  obtain ⟨hlen, holen⟩ := bytesAt_append_iff.mp hrest
  simp only [List.length_append, length_word, length_take_len, Nat.reduceAdd] at *
  exact ⟨hlen, holen, hsec, husec, hcontent⟩

/-- A length that a frame can have is stored as it is. -/
private theorem ofWord_len {n : Nat} (h : n ≤ 0xFFFF) : ofWord e (word e (UInt32.ofNat n)) = n := by
  have hsmall : n < 2 ^ 32 := by omega
  rw [ofWord_word]
  exact UInt32.toNat_ofNat_of_lt' hsmall

/-- A turn at a slot with a frame. -/
private theorem dumpTurn_written {f : Frame} {i : Nat} (h : IsRing s r)
    (hfill : r.fill.toNat < s.num)
    (hi : i < s.num) (hpos : 0 < f.pktlen)
    (hslot : bytesAt r.buf (slotOf s r i * s.slen) s.slen = slotBytes e s.lenItem f) :
    r.dumpTurn e i = .ok [recordOf s.lenItem f] := by
  have hfields := slotFields_of_slotBytes rfl hslot
  have hin := s.slot_le (Nat.mod_lt (r.fill.toNat + i) s.num_pos)
  have hs : s.slen = s.lenItem.toNat + 16 := rfl
  have hle := f.len_le s.lenItem
  have hmax : f.pktlen ≤ 0xFFFF := f.length_le
  -- a captured frame has a length, so its slot counts as used
  have hlenPos : 0 < f.len s.lenItem := by
    have hitem := s.lenItem_pos
    rw [Frame.len]
    split <;> omega
  have hlenWord : ofWord e (word e (UInt32.ofNat (f.len s.lenItem))) = f.len s.lenItem :=
    ofWord_len (hle.2.trans hmax)
  rw [← slotOf, ← h.size] at hin
  rw [Ringbuf.dumpTurn, get_eq h hfill hi, ok_bind, hfields.len, hlenWord, if_pos hlenPos]
  generalize slotOf s r i * s.slen = p at hin hfields
  simp only
  rw [fetch_eq (by omega), ok_bind, fetch_eq (by omega), ok_bind, fetch_eq (by omega), ok_bind,
    fetch_eq (by omega), ok_bind, hfields.len, hfields.olen, hfields.sec, hfields.usec, hlenWord,
    fetch_eq (by rw [entrySize]; omega), ok_bind, entrySize, hfields.content, ofWord_len hmax,
    ofWord_word, ofWord_word, Nat.mod_eq_of_lt (by omega), Nat.mod_eq_of_lt (by omega)]
  rfl

/-- A turn at any slot dumps nothing just if its length is zero. -/
private theorem dumpTurn_eq_nil_iff {i : Nat} (h : IsRing s r) (hfill : r.fill.toNat < s.num)
    (hi : i < s.num) :
    r.dumpTurn e i = .ok [] ↔ ofWord e (bytesAt r.buf (slotOf s r i * s.slen) 4) = 0 := by
  rw [Ringbuf.dumpTurn, get_eq h hfill hi, ok_bind]
  by_cases hlen : ofWord e (bytesAt r.buf (slotOf s r i * s.slen) 4) = 0
  · rw [if_neg (by omega)]
    exact ⟨fun _ => hlen, fun _ => rfl⟩
  · rw [if_pos (by omega)]
    simp only [hlen, iff_false]
    intro hturn
    -- a record is what the turn writes, so it is not empty
    obtain ⟨_, -, hturn⟩ := bind_ok hturn
    obtain ⟨_, -, hturn⟩ := bind_ok hturn
    obtain ⟨_, -, hturn⟩ := bind_ok hturn
    obtain ⟨_, -, hturn⟩ := bind_ok hturn
    obtain ⟨_, -, hturn⟩ := bind_ok hturn
    cases hturn

/-- A turn, and the other ones. -/
private theorem dumpFrom_succ {n i : Nat} (hlt : i + 1 < 2 ^ 31) :
    r.dumpFrom e (n + 1) i = (do
      let l ← r.dumpTurn e i
      let rest ← r.dumpFrom e n (i + 1)
      return l ++ rest) := by
  simp only [Ringbuf.dumpFrom, if_neg hlt.ne]

/-- Turns that each dump a frame. -/
private theorem dumpFrom_map {lenItem : UInt16} {fs : List Frame} {i : Nat}
    (hlt : i + fs.length < 2 ^ 31)
    (h : ∀ j, (hj : j < fs.length) → r.dumpTurn e (i + j) = .ok [recordOf lenItem fs[j]]) :
    r.dumpFrom e fs.length i = .ok (fs.map (recordOf lenItem)) := by
  induction fs generalizing i with
  | nil => rfl
  | cons f fs ih =>
    rw [List.length_cons] at hlt
    -- the turns behind the first one
    have hrest : ∀ j, (hj : j < fs.length) →
        r.dumpTurn e (i + 1 + j) = .ok [recordOf lenItem fs[j]] := by
      intro j hj
      have hturn := h (j + 1) (Nat.succ_lt_succ hj)
      rwa [List.getElem_cons_succ, Nat.add_comm j, ← Nat.add_assoc] at hturn
    have hturn := h 0 (Nat.zero_lt_succ _)
    rw [List.getElem_cons_zero, Nat.add_zero] at hturn
    rw [List.length_cons, dumpFrom_succ (by omega), hturn, ok_bind, ih (by omega) hrest, ok_bind]
    rfl

/-- The turns in two parts. -/
private theorem dumpFrom_add {a b i : Nat} {l : List Record} (hlt : i + (a + b) < 2 ^ 31) :
    r.dumpFrom e (a + b) i = .ok l ↔
      ∃ l₁ l₂, r.dumpFrom e a i = .ok l₁ ∧ r.dumpFrom e b (i + a) = .ok l₂ ∧ l = l₁ ++ l₂ := by
  -- on the first part: its slots are dumped one after the other, then come those of the second
  induction a generalizing i l with
  | zero =>
    rw [Nat.zero_add, Nat.add_zero]
    constructor
    · intro h
      exact ⟨[], l, rfl, h, rfl⟩
    · rintro ⟨l₁, l₂, hfirst, hsecond, rfl⟩
      cases hfirst
      exact hsecond
  | succ a ih =>
    rw [Nat.succ_add, dumpFrom_succ (by omega), dumpFrom_succ (by omega),
      show i + (a + 1) = i + 1 + a by omega]
    constructor
    · intro h
      obtain ⟨l₀, hturn, h⟩ := bind_ok h
      obtain ⟨rest, hrest, h⟩ := bind_ok h
      obtain ⟨l₁, l₂, hfirst, hsecond, rfl⟩ := (ih (by omega)).mp hrest
      cases h
      refine ⟨l₀ ++ l₁, l₂, ?_, hsecond, (List.append_assoc _ _ _).symm⟩
      rw [hturn, ok_bind, hfirst]
      rfl
    · rintro ⟨l₁, l₂, hfirst, hsecond, rfl⟩
      obtain ⟨l₀, hturn, hfirst⟩ := bind_ok hfirst
      obtain ⟨rest, hrest, hfirst⟩ := bind_ok hfirst
      cases hfirst
      rw [hturn, ok_bind, (ih (by omega)).mpr ⟨rest, l₂, hrest, hsecond, rfl⟩, ok_bind,
        List.append_assoc]
      rfl

/-- A range of slots adds nothing to a dump exactly if none of them does. -/
private theorem dumpFrom_eq_nil_iff {n i : Nat} (hlt : i + n < 2 ^ 31) :
    r.dumpFrom e n i = .ok [] ↔ ∀ j, i ≤ j → j < i + n → r.dumpTurn e j = .ok [] := by
  constructor
  · intro h j hj hj'
    -- the turn alone, between those before it and those after it
    rw [show n = j - i + (1 + (i + n - j - 1)) by omega, dumpFrom_add (by omega)] at h
    obtain ⟨l₁, l₂, -, h, hnil⟩ := h
    obtain ⟨rfl, rfl⟩ := List.append_eq_nil_iff.mp hnil.symm
    rw [show i + (j - i) = j by omega, dumpFrom_add (by omega)] at h
    obtain ⟨l₁, l₂, h, -, hnil⟩ := h
    obtain ⟨rfl, rfl⟩ := List.append_eq_nil_iff.mp hnil.symm
    rw [dumpFrom_succ (by omega)] at h
    obtain ⟨l, hturn, h⟩ := bind_ok h
    have hl : l ++ [] = [] := Except.ok.inj h
    rw [List.append_nil] at hl
    rw [hturn, hl]
  · intro h
    induction n generalizing i with
    | zero => rfl
    | succ n ih =>
      rw [dumpFrom_succ (by omega), h i (le_refl i) (by omega), ok_bind,
        ih (by omega) fun j hj hj' => h j (by omega) (by omega), ok_bind]
      rfl

/-! ### The last frames -/

/-- The last frames, as many as there are slots. -/
def lastFrames (s : Slots) (fs : List Frame) : List Frame := fs.drop (fs.length - s.num)

/-- The turns after the slots that were not written dump the last frames in order. -/
private theorem dumpFrom_lastFrames {fs : List Frame} (h : Holds e s m fs r)
    (hpos : ∀ f ∈ fs, 0 < f.pktlen) {c : Nat} (hc : c = min fs.length s.num) :
    r.dumpFrom e c (s.num - c) = .ok ((lastFrames s fs).map (recordOf s.lenItem)) := by
  have hnum := s.num_lt
  have hfill := h.fill_lt
  -- the turn that comes to a frame's slot is the one of its place among the last frames
  have hslot : ∀ j < c, slotOf s r (s.num - c + j) = (fs.length - c + j) % s.num := by
    intro j hj
    rw [slotOf, h.fill, Nat.mod_add_mod,
      show fs.length + (s.num - c + j) = fs.length - c + j + s.num by omega, Nat.add_mod_right]
  have hlength : (lastFrames s fs).length = c := by
    rw [lastFrames, List.length_drop]
    omega
  have hturn : ∀ j, (hj : j < (lastFrames s fs).length) →
      r.dumpTurn e (s.num - c + j) = .ok [recordOf s.lenItem (lastFrames s fs)[j]] := by
    intro j hj
    have hlt : fs.length - c + j < fs.length := by omega
    have hget : (lastFrames s fs)[j] = fs[fs.length - c + j] := by
      simp only [lastFrames, List.getElem_drop, show fs.length - s.num = fs.length - c by omega]
    have hwritten := h.written _ hlt (by omega)
    rw [← hslot j (by omega)] at hwritten
    rw [hget]
    exact dumpTurn_written h.ring hfill (by omega) (hpos _ (List.getElem_mem hlt)) hwritten
  have hdump := dumpFrom_map (by omega) hturn
  rwa [hlength] at hdump

/-- The dump has just the last frames if no other slot has a length. -/
private theorem dump_eq_iff {fs : List Frame} (h : Holds e s m fs r) (hpos : ∀ f ∈ fs, 0 < f.pktlen)
    :
    r.dump e = .ok ((lastFrames s fs).map (recordOf s.lenItem)) ↔
      ∀ k, fs.length ≤ k → k < s.num → ofWord e (bytesAt m (k * s.slen) 4) = 0 := by
  have hnum := s.num_lt
  have hslen := s.slen_pos
  obtain ⟨c, hc⟩ : ∃ c, c = min fs.length s.num := ⟨_, rfl⟩
  have hlast := dumpFrom_lastFrames h hpos hc
  have hlen : r.len.toNat = s.num - c + c := by
    rw [h.ring.len, Nat.sub_add_cancel (by omega)]
    rfl
  -- the slots never written come first and must give no record
  have hfirst : r.dump e = .ok ((lastFrames s fs).map (recordOf s.lenItem)) ↔
      r.dumpFrom e (s.num - c) 0 = .ok [] := by
    rw [Ringbuf.dump, hlen, dumpFrom_add (by omega), Nat.zero_add]
    constructor
    · rintro ⟨l₁, l₂, hbefore, hafter, heq⟩
      rw [hlast] at hafter
      cases hafter
      rw [hbefore, List.self_eq_append_left.mp heq]
    · intro hbefore
      exact ⟨[], _, hbefore, hlast, rfl⟩
  -- such a slot still has the bytes of the mapping, so its length word decides
  have hturn : ∀ k, fs.length ≤ k → k < s.num →
      (r.dumpTurn e (k - fs.length) = .ok [] ↔ ofWord e (bytesAt m (k * s.slen) 4) = 0) := by
    intro k hk hk'
    have hslot : slotOf s r (k - fs.length) = k := by
      rw [slotOf, h.fill, Nat.mod_eq_of_lt (show fs.length < s.num by omega),
        Nat.add_sub_cancel' hk, Nat.mod_eq_of_lt hk']
    have hlen : bytesAt r.buf (k * s.slen) 4 = bytesAt m (k * s.slen) 4 := by
      rw [bytesAt_take (h.unwritten k hk hk') (by omega)]
      exact (bytesAt_take rfl (by omega)).symm
    rw [dumpTurn_eq_nil_iff h.ring h.fill_lt (by omega), hslot, hlen]
  rw [hfirst, dumpFrom_eq_nil_iff (by omega)]
  constructor
  · intro hall k hk hk'
    exact (hturn k hk hk').mp (hall _ (Nat.zero_le _) (by omega))
  · intro hall i _ hi
    have hslot := (hturn (fs.length + i) (by omega) (by omega)).mpr (hall _ (by omega) (by omega))
    rwa [Nat.add_sub_cancel_left] at hslot

/-! ### The memory that is not cleared -/

/-- A number is zero exactly if its bytes are. -/
private theorem loadBE_eq_zero_iff {n : Nat} {m : Mem} : loadBE n m = 0 ↔ ∀ i < n, m i = 0 := by
  induction n with
  | zero => exact ⟨fun _ i hi => absurd hi (Nat.not_lt_zero i), fun _ => rfl⟩
  | succ n ih =>
    rw [loadBE, Nat.add_eq_zero_iff, Nat.mul_eq_zero, or_iff_right (by decide), ih]
    constructor
    · rintro ⟨hrest, hlast⟩ i hi
      rcases Nat.lt_succ_iff_lt_or_eq.mp hi with hlt | rfl
      · exact hrest i hlt
      · exact UInt8.toNat_inj.mp hlast
    · intro h
      exact ⟨fun i hi => h i (Nat.lt_succ_of_lt hi), by rw [h n (Nat.lt_succ_self n)]; rfl⟩

/-- A number is zero exactly if its bytes are, in both orders. -/
private theorem load_eq_zero_iff {n : Nat} {m : Mem} : e.load n m = 0 ↔ ∀ i < n, m i = 0 := by
  cases e with
  | big => exact loadBE_eq_zero_iff
  | little =>
    rw [Endian.load, loadLE, loadBE_eq_zero_iff]
    constructor
    · intro h i hi
      have hbyte := h (n - 1 - i) (by omega)
      rwa [show n - 1 - (n - 1 - i) = i by omega] at hbyte
    · intro h i hi
      exact h _ (by omega)

/-- A length is zero as what was not cleared of it is. -/
theorem ofWord_cleared {p : Nat} : ofWord e (bytesAt (cleared s m) p 4) = 0 ↔
    ∀ j < 4, s.num * s.lenItem.toNat ≤ p + j → m (p + j) = 0 := by
  rw [ofWord, load_eq_zero_iff]
  refine forall₂_congr fun j hj => ?_
  rw [getD_bytesAt _ _ hj]
  by_cases hclear : p + j < s.num * s.lenItem.toNat
  · have hzero : cleared s m (0 + (p + j)) = 0 := by
      rw [cleared, writeBytes_add _ _ (by rwa [List.length_replicate]), List.getD_replicate _ hclear]
    rw [Nat.zero_add] at hzero
    exact ⟨fun _ hle => absurd hle (by omega), fun _ => hzero⟩
  · rw [cleared, writeBytes_of_le _ (by rw [List.length_replicate]; omega)]
    exact ⟨fun h _ => h, fun h => h (by omega)⟩

/-! ### The whole run -/

/-- A dump after the frames that come in has just the last ones of those that are stored. -/
def Faithful (e : Endian) (w : Nat) (s : Slots) (m : Mem) (filterData filterBeacon : Bool)
    (frames : List Frame) : Prop :=
  ∃ r r', ringbufInit w (some m) s.numItem s.lenItem = .ok (some r) ∧
    r.run e s.lenItem filterData filterBeacon frames = .ok r' ∧
    r'.dump e = .ok ((lastFrames s (frames.filter (·.kept filterData filterBeacon))).map
      (recordOf s.lenItem))

/-- A frame that is kept is not empty. -/
private theorem pktlen_pos {filterData filterBeacon : Bool} {f : Frame}
    (h : f.kept filterData filterBeacon = true) : 0 < f.pktlen := by
  by_contra hpos
  rw [Frame.kept, if_pos (by rw [Nat.eq_zero_of_not_pos hpos]; rfl)] at h
  cases h

/-- What the run comes to. -/
theorem faithful_iff_cleared {filterData filterBeacon : Bool} {frames : List Frame} (hw : 32 ≤ w) :
    Faithful e w s m filterData filterBeacon frames ↔
      ∀ k, (frames.filter (·.kept filterData filterBeacon)).length ≤ k → k < s.num →
        ofWord e (bytesAt (cleared s m) (k * s.slen) 4) = 0 := by
  obtain ⟨r', hrun, hholds⟩ := (holds_initial e s m).run filterData filterBeacon frames
  rw [List.nil_append] at hholds
  have hpos : ∀ f ∈ frames.filter (·.kept filterData filterBeacon), 0 < f.pktlen :=
    fun f hf => pktlen_pos (List.of_mem_filter hf)
  rw [← dump_eq_iff hholds hpos]
  -- the ring is made and run in one way only, so the dump is the one compared
  constructor
  · rintro ⟨r₁, r₂, hinit, hrun', hdump⟩
    rw [ringbufInit_eq s m hw] at hinit
    cases hinit
    rw [hrun] at hrun'
    cases hrun'
    exact hdump
  · intro hdump
    exact ⟨_, r', ringbufInit_eq s m hw, hrun, hdump⟩

/-- A dump has just the last frames if and only if each slot that was not written has no length in what
was not cleared of it. -/
theorem faithful_iff {filterData filterBeacon : Bool} {frames : List Frame} (hw : 32 ≤ w) :
    Faithful e w s m filterData filterBeacon frames ↔
      ∀ k, (frames.filter (·.kept filterData filterBeacon)).length ≤ k → k < s.num →
        ∀ j < 4, s.num * s.lenItem.toNat ≤ k * s.slen + j → m (k * s.slen + j) = 0 := by
  rw [faithful_iff_cleared hw]
  exact forall₃_congr fun k _ _ => ofWord_cleared

/-- Four slots for frames of 41 bytes. -/
def fourSlots : Slots where
  numItem := 4
  lenItem := 41
  numItem_pos := by decide
  lenItem_pos := by decide
  fits := by decide

/-- A frame of `8 + n` bytes behind an empty radiotap header. -/
def sampleFrame (n : Nat) (h : n < 1000) (b : UInt8) : Frame where
  pktbuf := List.replicate 8 0 ++ List.replicate n b
  sec := 7
  usec := 9
  length_le := by
    rw [List.length_append, List.length_replicate, List.length_replicate]
    omega

/-- The frames of the examples are kept if they are not empty. -/
theorem kept_sampleFrame {n : Nat} (h : n < 1000) (b : UInt8) :
    (sampleFrame n h b).kept false false = decide (0 < n) := by
  have hlen : (sampleFrame n h b).pktlen = 8 + n := by
    rw [Frame.pktlen, sampleFrame, List.length_append, List.length_replicate,
      List.length_replicate]
  -- `it_len` lies in the zeroes
  have hit : (sampleFrame n h b).itLen = 0 := by
    rw [Frame.itLen, sampleFrame]
    rfl
  rw [Frame.kept, hlen, hit]
  cases n with
  | zero => rfl
  | succ n => simp

/-- Seven frames, of which the first is too short to be stored. Two of the others are longer than a
    slot takes. -/
def sampleFrames : List Frame :=
  [sampleFrame 0 (by decide) 0, sampleFrame 20 (by decide) 1, sampleFrame 90 (by decide) 2,
    sampleFrame 5 (by decide) 3, sampleFrame 33 (by decide) 4, sampleFrame 34 (by decide) 5,
    sampleFrame 1 (by decide) 6]

/-- Six stored frames overwrite all of the four slots, so that nothing of the old content is seen. -/
theorem faithful_iff_fourSlots :
    Faithful .little 32 fourSlots (fun i => UInt8.ofNat (i + 1)) false false sampleFrames := by
  have hstored : (sampleFrames.filter (·.kept false false)).length = 6 := by
    simp only [sampleFrames, List.filter_cons, List.filter_nil, kept_sampleFrame]
    rfl
  refine (faithful_iff (le_refl 32)).mpr fun k hk hlt => ?_
  have hfour : fourSlots.num = 4 := rfl
  omega

/-- The length of the last slot is not cleared. -/
theorem not_faithful_fourSlots :
    ¬ Faithful .little 32 fourSlots (fun i => if i = 171 then 1 else 0) false false [] := by
  rw [faithful_iff_cleared (le_refl 32)]
  intro h
  exact absurd (h 3 (by decide) (by decide)) (by decide +kernel)

end HandsomeMod.Native.Iwcap
