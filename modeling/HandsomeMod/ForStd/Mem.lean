import HandsomeMod.ForStd.Bits

/-!
# Byte strings in memory

Writing a list of bytes to an address, and reading bytes as a list.
-/

namespace HandsomeMod.ForStd

/-- Memory after the bytes of `l` were written from `pos` on. -/
def writeBytes (m : Mem) (pos : Nat) (l : List UInt8) : Mem :=
  fun i => if pos ≤ i ∧ i < pos + l.length then l.getD (i - pos) 0 else m i

/-- The `n` bytes from `pos` on. -/
def bytesAt (m : Mem) (pos n : Nat) : List UInt8 := (List.range n).map fun i => m (pos + i)

/-- The bytes of an `n`-byte little-endian number. -/
def leBytes (n v : Nat) : List UInt8 := (List.range n).map (storeLE n v)

theorem length_bytesAt (m : Mem) (pos n : Nat) : (bytesAt m pos n).length = n := by
  rw [bytesAt, List.length_map, List.length_range]

theorem length_leBytes (n v : Nat) : (leBytes n v).length = n := by
  rw [leBytes, List.length_map, List.length_range]

/-- The bytes of two memories that agree there. -/
theorem bytesAt_congr {m m' : Mem} {pos n : Nat} (h : ∀ i < n, m (pos + i) = m' (pos + i)) :
    bytesAt m pos n = bytesAt m' pos n :=
  List.map_congr_left fun i hi => h i (List.mem_range.mp hi)

/-- Two ranges that follow one another. -/
theorem bytesAt_add (m : Mem) (pos a b : Nat) :
    bytesAt m pos (a + b) = bytesAt m pos a ++ bytesAt m (pos + a) b := by
  rw [bytesAt, bytesAt, bytesAt, List.range_add, List.map_append, List.map_map]
  congr 1
  apply List.map_congr_left
  intro i _
  simp only [Function.comp_apply, Nat.add_assoc]

/-- Two lists, one behind the other. -/
theorem bytesAt_append_iff {m : Mem} {pos : Nat} {l l' : List UInt8} :
    bytesAt m pos (l ++ l').length = l ++ l' ↔
      bytesAt m pos l.length = l ∧ bytesAt m (pos + l.length) l'.length = l' := by
  rw [List.length_append, bytesAt_add]
  constructor
  · intro h
    exact List.append_inj h (length_bytesAt m pos l.length)
  · rintro ⟨h, h'⟩
    rw [h, h']

/-- A little-endian number is loaded from its bytes. -/
theorem loadLE_of_bytesAt {m : Mem} {pos n v : Nat} (h : bytesAt m pos n = leBytes n v)
    (hv : v < 2 ^ (8 * n)) : loadLE n (fun i => m (pos + i)) = v := by
  have hbyte : ∀ i ∈ List.range n, m (pos + i) = storeLE n v i := List.map_inj_left.mp h
  have hload : loadLE n (fun i => m (pos + i)) = loadLE n (storeLE n v) := by
    rw [loadLE, loadLE]
    apply loadBE_congr
    intro i hi
    exact hbyte (n - 1 - i) (List.mem_range.mpr (by omega))
  rw [hload, loadLE_storeLE hv]

/-- The bytes behind the first `k`. -/
theorem bytesAt_drop (m : Mem) (pos k n : Nat) :
    (bytesAt m pos (k + n)).drop k = bytesAt m (pos + k) n := by
  rw [bytesAt_add]
  exact List.drop_left' (length_bytesAt m pos k)

/-- Part of what was read. -/
theorem bytesAt_sub {m : Mem} {pos len off n : Nat} {l : List UInt8} (h : bytesAt m pos len = l)
    (hlen : off + n ≤ len) : bytesAt m (pos + off) n = (l.drop off).take n := by
  obtain ⟨r, rfl⟩ := Nat.exists_eq_add_of_le hlen
  rw [← h, Nat.add_assoc, bytesAt_drop, bytesAt_add]
  exact (List.take_left' (length_bytesAt m (pos + off) n)).symm

/-- The first bytes of what was read. -/
theorem bytesAt_take {m : Mem} {pos len n : Nat} {l : List UInt8} (h : bytesAt m pos len = l)
    (hlen : n ≤ len) : bytesAt m pos n = l.take n := by
  have hsub := bytesAt_sub h (show 0 + n ≤ len by omega)
  rwa [Nat.add_zero, List.drop_zero] at hsub

/-- A byte of a range. -/
theorem getD_bytesAt (m : Mem) (pos : Nat) {n i : Nat} (h : i < n) :
    (bytesAt m pos n).getD i 0 = m (pos + i) := by
  simp [bytesAt, h]

/-- A list as memory. -/
theorem bytesAt_getD {l : List UInt8} {off n : Nat} (h : off + n ≤ l.length) :
    bytesAt (fun i => l.getD i 0) off n = (l.drop off).take n := by
  have hall : bytesAt (fun i => l.getD i 0) 0 l.length = l := by
    apply List.ext_getElem
    · rw [length_bytesAt]
    · intro i hi hi'
      simp [bytesAt, hi']
  have hsub := bytesAt_sub hall h
  rwa [Nat.zero_add] at hsub

/-- What was written is read back. -/
theorem bytesAt_writeBytes_self (m : Mem) (pos : Nat) (l : List UInt8) :
    bytesAt (writeBytes m pos l) pos l.length = l := by
  apply List.ext_getElem
  · rw [length_bytesAt]
  · intro i hi hi'
    simp [bytesAt, writeBytes, hi']

/-- What was written is read again. -/
theorem bytesAt_writeBytes_eq (m : Mem) {pos n : Nat} {l : List UInt8} (h : l.length = n) :
    bytesAt (writeBytes m pos l) pos n = l := by
  rw [← h]
  exact bytesAt_writeBytes_self m pos l

/-- A byte that was written. -/
theorem writeBytes_add (m : Mem) (pos : Nat) {l : List UInt8} {i : Nat} (h : i < l.length) :
    writeBytes m pos l (pos + i) = l.getD i 0 := by
  rw [writeBytes, if_pos (by omega), Nat.add_sub_cancel_left]

/-- A write keeps what is in front of it. -/
theorem writeBytes_of_lt {m : Mem} {pos i : Nat} (l : List UInt8) (h : i < pos) :
    writeBytes m pos l i = m i := by
  rw [writeBytes, if_neg (by omega)]

/-- A write keeps what is behind it. -/
theorem writeBytes_of_le {m : Mem} {pos i : Nat} (l : List UInt8) (h : pos + l.length ≤ i) :
    writeBytes m pos l i = m i := by
  rw [writeBytes, if_neg (by omega)]

/-- A write in the place of another one. -/
theorem writeBytes_writeBytes (m : Mem) (pos : Nat) {l l' : List UInt8} (h : l.length = l'.length) :
    writeBytes (writeBytes m pos l) pos l' = writeBytes m pos l' := by
  funext i
  simp only [writeBytes, h]
  split
  · rfl
  · rfl

/-- Two writes, one behind the other, are one. -/
theorem writeBytes_append (m : Mem) (pos : Nat) (l l' : List UInt8) :
    writeBytes (writeBytes m pos l) (pos + l.length) l' = writeBytes m pos (l ++ l') := by
  funext i
  simp only [writeBytes, List.length_append]
  split
  · rw [if_pos (by omega), List.getD_append_right _ _ _ _ (by omega)]
    congr 1
    omega
  · split
    · rw [if_pos (by omega), List.getD_append _ _ _ _ (by omega)]
    · rw [if_neg (by omega)]

/-- Bytes in front of a write do not change. -/
theorem bytesAt_writeBytes_before (m : Mem) {pos start n : Nat} (l : List UInt8)
    (h : start + n ≤ pos) : bytesAt (writeBytes m pos l) start n = bytesAt m start n :=
  bytesAt_congr fun i hi => writeBytes_of_lt l (by omega)

/-- Bytes behind a write do not change. -/
theorem bytesAt_writeBytes_after (m : Mem) {pos start : Nat} (n : Nat) (l : List UInt8)
    (h : pos + l.length ≤ start) : bytesAt (writeBytes m pos l) start n = bytesAt m start n :=
  bytesAt_congr fun i _ => writeBytes_of_le l (by omega)

end HandsomeMod.ForStd
