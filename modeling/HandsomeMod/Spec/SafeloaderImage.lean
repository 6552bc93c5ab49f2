import HandsomeMod.Spec.SafeloaderTable

/-!
# Safeloader images are read as they were built

Where the image generator puts the table and the partitions, and what is read of them.
-/

namespace HandsomeMod.Native.Safeloader

open ForStd

/-! ### Writing a table -/

/-- The tail of a line of the image partition table, without its newline. -/
def fwupTail : List UInt8 := ascii "\t\x0d"

/-- A line of the image table is a formatted entry. -/
private theorem fwupLine_eq (name : List UInt8) (base size : UInt32) :
    fwupLine name base size = formatEntry fwuphdr (fwupTail ++ [0x0a]) name base size := rfl

/-- So is a line of the partition table. -/
private theorem flashLine_eq (name : List UInt8) (base size : UInt32) :
    flashLine name base size = formatEntry flashhdr ([] ++ [0x0a]) name base size := rfl

/-- A line that fits is stored with its NUL. -/
private theorem putLine_eq {m m' : Mem} {tbl pos pos' : Nat} {line : List UInt8}
    (h : putLine m tbl pos line = some (m', pos')) :
    line.length ≤ tableSize - pos - 1 ∧ m' = writeBytes m (tbl + pos) (line ++ [0]) ∧
      pos' = pos + line.length := by
  rw [putLine] at h
  split at h
  · cases h
  · next hle =>
    obtain ⟨rfl, rfl⟩ := Prod.mk.inj (Option.some.inj h)
    exact ⟨Nat.le_of_not_lt hle, rfl, rfl⟩

/-- A text stands in a table, with a zero byte behind it. -/
structure TextAt (tbl pos : Nat) (text : List UInt8) (m : Mem) : Prop where
  fits : pos + text.length < tableSize
  bytes : bytesAt m (tbl + pos) (text.length + 1) = text ++ [0]

/-- One line that was put, and memory that it was not changed in later. -/
theorem TextAt.line {m m' : Mem} {tbl pos : Nat} {line : List UInt8}
    (hfits : line.length ≤ tableSize - pos - 1) (hpos : 0 < line.length)
    (hsame : ∀ i < tbl + pos + (line.length + 1),
      m' i = writeBytes m (tbl + pos) (line ++ [0]) i) : TextAt tbl pos line m' := by
  refine ⟨by omega, ?_⟩
  rw [bytesAt_congr fun i hi => hsame (tbl + pos + i) (by omega)]
  exact bytesAt_writeBytes_eq m (by rw [List.length_append, List.length_singleton])

/-- A line in front of the rest of the text. -/
theorem TextAt.cons {m m' : Mem} {tbl pos : Nat} {line text : List UInt8}
    (hsame : ∀ i < tbl + (pos + line.length),
      m' i = writeBytes m (tbl + pos) (line ++ [0]) i)
    (h : TextAt tbl (pos + line.length) text m') : TextAt tbl pos (line ++ text) m' := by
  have hfits := h.fits
  refine ⟨by rw [List.length_append]; omega, ?_⟩
  have hline : bytesAt m' (tbl + pos) line.length = line := by
    rw [bytesAt_congr fun i hi => hsame (tbl + pos + i) (by omega)]
    rw [bytesAt_take (bytesAt_writeBytes_self m (tbl + pos) (line ++ [0])) (by simp)]
    exact List.take_left' rfl
  rw [List.length_append, Nat.add_assoc, bytesAt_add, hline, Nat.add_assoc tbl, h.bytes,
    List.append_assoc]

/-- A line is not empty. -/
private theorem formatEntry_pos (hdr tail name : List UInt8) (base size : UInt32) :
    0 < (formatEntry hdr (tail ++ [0x0a]) name base size).length := by
  rw [formatEntry_eq, List.length_append, List.length_singleton]
  omega

/-- The loop of `make_partition_table` leaves the text of the table. -/
theorem flashLines_eq {p : List FlashPartitionEntry} {m m' : Mem} {s s' : Nat}
    (h : flashLines m s p = some (m', s')) :
    s' = s + (tableText flashhdr [] p).length ∧ (∀ i < s, m' i = m i) ∧
      (p ≠ [] → TextAt 0 s (tableText flashhdr [] p) m') := by
  -- each line is written over the terminator of the one before
  induction p generalizing m s with
  | nil =>
    obtain ⟨rfl, rfl⟩ := Prod.mk.inj (Option.some.inj h)
    exact ⟨rfl, fun _ _ => rfl, fun hne => absurd rfl hne⟩
  | cons e p ih =>
    rw [flashLines] at h
    cases hput : putLine m 0 s (flashLine e.name e.base e.size) with
    | none =>
      rw [hput] at h
      cases h
    | some r =>
      rw [hput] at h
      obtain ⟨hfits, hm, hs⟩ := putLine_eq hput
      obtain ⟨hs', hbefore, htext⟩ := ih h
      rw [hs] at hs' hbefore htext
      rw [hm] at hbefore
      have hsplit : tableText flashhdr [] (e :: p) =
          flashLine e.name e.base e.size ++ tableText flashhdr [] p := rfl
      refine ⟨?_, ?_, fun _ => ?_⟩
      · rw [hs', hsplit, List.length_append, Nat.add_assoc]
      · intro i hi
        rw [hbefore i (by omega), Nat.zero_add]
        exact writeBytes_of_lt _ hi
      · rw [hsplit]
        cases p with
        -- the last line: its terminator stays
        | nil =>
          obtain ⟨rfl, -⟩ := Prod.mk.inj (Option.some.inj h)
          rw [tableText, List.flatMap_nil, List.append_nil]
          rw [flashLine_eq] at hfits hm ⊢
          exact TextAt.line hfits (formatEntry_pos _ _ _ _ _) fun i _ => by rw [hm]
        -- the next line begins where this one's terminator stood
        | cons e' p =>
          exact TextAt.cons (m := m) (fun i hi => hbefore i (by omega))
            (htext (List.cons_ne_nil _ _))

/-! ### Building an image -/

/-- The entries that are printed for partitions, the first one at `base`. -/
def written : Nat → List ImagePartitionEntry → List FlashPartitionEntry
  | _, [] => []
  | base, part :: parts =>
    ⟨part.name, UInt32.ofNat base, UInt32.ofNat part.data.length⟩ ::
      written (base + part.data.length) parts

/-- Where partition `k` is put. -/
def baseOf (base : Nat) (parts : List ImagePartitionEntry) (k : Nat) : Nat :=
  base + totalSize (parts.take k)

/-- Each partition has a line. -/
theorem length_written (base : Nat) (parts : List ImagePartitionEntry) :
    (written base parts).length = parts.length := by
  induction parts generalizing base with
  | nil => rfl
  | cons part parts ih => rw [written, List.length_cons, List.length_cons, ih]

/-- The sizes of the partitions are added. -/
theorem totalSize_cons (part : ImagePartitionEntry) (parts : List ImagePartitionEntry) :
    totalSize (part :: parts) = part.data.length + totalSize parts := by
  rw [totalSize, List.map_cons, List.sum_cons, totalSize]

/-- The bases follow one another. -/
private theorem baseOf_succ (base : Nat) (part : ImagePartitionEntry)
    (parts : List ImagePartitionEntry)
    (k : Nat) : baseOf base (part :: parts) (k + 1) = baseOf (base + part.data.length) parts k := by
  rw [baseOf, List.take_succ_cons, totalSize_cons, baseOf, Nat.add_assoc]

/-- The line of a partition. -/
theorem getElem?_written {base : Nat} {parts : List ImagePartitionEntry} {k : Nat}
    {part : ImagePartitionEntry} (h : parts[k]? = some part) :
    (written base parts)[k]? =
      some ⟨part.name, UInt32.ofNat (baseOf base parts k), UInt32.ofNat part.data.length⟩ := by
  induction parts generalizing base k with
  | nil => cases h
  | cons p parts ih =>
    cases k with
    | zero =>
      obtain rfl := Option.some.inj h
      rfl
    | succ k =>
      rw [baseOf_succ]
      exact ih h

/-- The lines have the names of the partitions. -/
theorem name_of_mem_written {base : Nat} {parts : List ImagePartitionEntry}
    {e : FlashPartitionEntry} (h : e ∈ written base parts) :
    ∃ part ∈ parts, e.name = part.name := by
  induction parts generalizing base with
  | nil => cases h
  | cons part parts ih =>
    rcases List.mem_cons.mp h with rfl | h
    · exact ⟨part, List.mem_cons_self, rfl⟩
    · obtain ⟨part', hmem, hname⟩ := ih h
      exact ⟨part', List.mem_cons_of_mem _ hmem, hname⟩

/-- The text of the image partition table. -/
abbrev imageText (base : Nat) (parts : List ImagePartitionEntry) : List UInt8 :=
  tableText fwuphdr fwupTail (written base parts)

/-- What `put_partitions` leaves in memory. -/
structure Put (buffer imagePt base : Nat) (parts : List ImagePartitionEntry) (m m' : Mem) :
    Prop where
  before : ∀ i < buffer + imagePt, m' i = m i
  between : ∀ i, buffer + tableSize ≤ i → i < buffer + base → m' i = m i
  text : parts ≠ [] → TextAt buffer imagePt (imageText base parts) m'
  data : ∀ k part, parts[k]? = some part →
    bytesAt m' (buffer + baseOf base parts k) part.data.length = part.data
  size_lt : ∀ part ∈ parts, part.data.length < 2 ^ 32

/-- The partitions are stored with their lines. -/
theorem putPartitions_put {flashParts : List FlashPartitionEntry} {buffer imagePt base : Nat}
    {parts : List ImagePartitionEntry} {m m' : Mem}
    (h : putPartitions flashParts buffer parts imagePt base m = some m')
    (hpt : imagePt < tableSize) (hbase : tableSize ≤ base) :
    Put buffer imagePt base parts m m' := by
  -- the data go behind those before, the line into the table in front of all of them
  induction parts generalizing imagePt base m with
  | nil =>
    obtain rfl := Option.some.inj h
    refine ⟨fun _ _ => rfl, fun _ _ _ => rfl, fun hne => absurd rfl hne, ?_, ?_⟩
    · intro k part hk
      cases hk
    · intro part hmem
      cases hmem
  | cons part parts ih =>
    rw [putPartitions] at h
    cases hfind : flashParts.find? fun e => e.name = part.name with
    | none =>
      rw [hfind] at h
      cases h
    | some e =>
      rw [hfind] at h
      simp only at h
      split at h
      · cases h
      · next hsize =>
        generalize hm₁ : writeBytes m (buffer + base) part.data = m₁ at h
        cases hput : putLine m₁ buffer imagePt (fwupLine part.name (UInt32.ofNat base)
            (UInt32.ofNat part.data.length)) with
        | none =>
          rw [hput] at h
          cases h
        | some r =>
          rw [hput] at h
          obtain ⟨hfits, hm₂, hpt'⟩ := putLine_eq hput
          generalize hline : fwupLine part.name (UInt32.ofNat base)
            (UInt32.ofNat part.data.length) = line at hfits hm₂ hpt'
          -- a line is not empty, so the table gets longer
          have hpos : 0 < line.length := by
            rw [← hline, fwupLine_eq]
            exact formatEntry_pos _ _ _ _ _
          have hrest := ih h (by omega) (by omega)
          rw [hpt', hm₂] at hrest
          have hsplit : imageText base (part :: parts) =
              line ++ imageText (base + part.data.length) parts := by
            rw [← hline]
            exact List.flatMap_cons
          -- The line with its end lies in the table, the data behind the table.
          have htable : ∀ i, buffer + tableSize ≤ i →
              writeBytes m₁ (buffer + imagePt) (line ++ [0]) i = m₁ i := by
            intro i hi
            apply writeBytes_of_le
            rw [List.length_append, List.length_singleton]
            omega
          refine ⟨?_, ?_, fun _ => ?_, ?_, ?_⟩
          · intro i hi
            rw [hrest.before i (by omega), writeBytes_of_lt _ hi, ← hm₁]
            exact writeBytes_of_lt _ (by omega)
          · intro i hi hi'
            rw [hrest.between i hi (by omega), htable i hi, ← hm₁]
            exact writeBytes_of_lt _ hi'
          · rw [hsplit]
            cases parts with
            | nil =>
              rw [imageText, written, tableText, List.flatMap_nil, List.append_nil]
              obtain hm' := Option.some.inj h
              exact TextAt.line hfits hpos fun i _ => by rw [← hm', hm₂]
            | cons p parts =>
              exact TextAt.cons (m := m₁) (fun i hi => hrest.before i (by omega))
                (hrest.text (List.cons_ne_nil _ _))
          · intro k q hk
            cases k with
            | zero =>
              obtain rfl := Option.some.inj hk
              rw [baseOf, List.take_zero, bytesAt_congr fun i hi => (hrest.between _
                (by show buffer + tableSize ≤ buffer + (base + 0) + i; omega)
                (by show buffer + (base + 0) + i < _; omega)).trans
                  (htable _ (by show buffer + tableSize ≤ buffer + (base + 0) + i; omega)), ← hm₁]
              exact bytesAt_writeBytes_self m (buffer + base) part.data
            | succ k =>
              rw [baseOf_succ]
              exact hrest.data k q hk
          · intro q hq
            rcases List.mem_cons.mp hq with rfl | hq
            · have hlt := e.size.toNat_lt
              omega
            · exact hrest.size_lt q hq

end HandsomeMod.Native.Safeloader
