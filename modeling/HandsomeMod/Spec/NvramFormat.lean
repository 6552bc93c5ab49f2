import HandsomeMod.ForStd.Pack
import HandsomeMod.Native.Nvram

/-!
# The hash table of `libnvram` is a finite map

`Table.get` after `set` and `unset`, and the list of all tuples: it holds a name once, and looking a
name up in it is `get`.
-/

namespace HandsomeMod.Native.Nvram

open ForStd

/-- The bytes that a tuple takes in the data area. -/
def tupleSize (t : Tuple) : Nat := strlen t.1 + 1 + strlen t.2 + 1

/-- A name has a bucket of the table. -/
private theorem bucket_lt (d : Device) (name : CString) : bucket d name < numBuckets := by
  have hmod : (hash d name).toNat % (numBuckets * d.ptrSize) < numBuckets * d.ptrSize :=
    Nat.mod_lt _ (Nat.mul_pos (by decide) d.ptrSize_pos)
  exact Nat.div_lt_of_lt_mul (by rwa [Nat.mul_comm d.ptrSize])

namespace Table

variable {d : Device}

/-- Nothing is in the empty table. -/
@[simp] theorem get_empty (name : CString) : (empty : Table d).get name = none := rfl

/-- Setting a value changes the bucket of its name. -/
theorem chain_set (tab : Table d) (name value : CString) (i : Nat) :
    (tab.set name value).chain i =
      if i = bucket d name then Assoc.put name value (tab.chain (bucket d name))
      else tab.chain i := rfl

/-- Unsetting a value changes the bucket of its name. -/
theorem chain_unset (tab : Table d) (name : CString) (i : Nat) :
    (tab.unset name).chain i =
      if i = bucket d name then Assoc.del name (tab.chain (bucket d name)) else tab.chain i := rfl

/-- Setting a value is seen under its name only. -/
theorem get_set (tab : Table d) (name value name' : CString) :
    (tab.set name value).get name' = if name' = name then some value else tab.get name' := by
  rw [get, chain_set]
  split
  · rename_i hbucket
    rw [Assoc.lookup_put, get, hbucket]
  · rename_i hbucket
    have hne : name' ≠ name := fun heq => hbucket (congrArg _ heq)
    rw [if_neg hne, get]

/-- Unsetting a value is seen under its name only. -/
theorem get_unset (tab : Table d) (name name' : CString) :
    (tab.unset name).get name' = if name' = name then none else tab.get name' := by
  rw [get, chain_unset]
  split
  · rename_i hbucket
    rw [Assoc.lookup_del (tab.nodup _), get, hbucket]
  · rename_i hbucket
    have hne : name' ≠ name := fun heq => hbucket (congrArg _ heq)
    rw [if_neg hne, get]

/-- A name whose value is set again and again has the last one. -/
theorem get_foldl_set (ts : List Tuple) (tab : Table d) (hts : (Assoc.keys ts).Nodup)
    (name : CString) :
    (ts.foldl (fun tab t => tab.set t.1 t.2) tab).get name =
      (ts.lookup name).or (tab.get name) := by
  induction ts generalizing tab with
  | nil => rfl
  | cons t ts ih =>
    obtain ⟨ht, hts⟩ := List.nodup_cons.mp hts
    rw [List.foldl_cons, ih _ hts, get_set, Assoc.lookup_cons]
    by_cases h : name = t.1
    · have hnone : ts.lookup name = none := (Assoc.lookup_eq_none name ts).mpr (h ▸ ht)
      rw [hnone, if_pos h, if_pos h.symm]
      rfl
    · rw [if_neg h, if_neg fun heq => h heq.symm]

/-! ### The list of all tuples -/

/-- The tuples of a table are what can be got from it. -/
theorem mem_tuples (tab : Table d) (t : Tuple) :
    t ∈ tab.tuples ↔ tab.get t.1 = some t.2 := by
  rw [get, Assoc.lookup_eq_some (tab.nodup _), tuples, List.mem_flatMap]
  constructor
  · intro h
    obtain ⟨i, -, ht⟩ := h
    rwa [tab.bucket_eq i t ht]
  · intro h
    exact ⟨bucket d t.1, List.mem_range.mpr (bucket_lt d t.1), h⟩

/-- No name comes twice. -/
theorem nodup_keys_tuples (tab : Table d) : (Assoc.keys tab.tuples).Nodup := by
  rw [Assoc.keys, tuples, List.map_flatMap, List.nodup_flatMap]
  constructor
  · intro i _
    exact tab.nodup i
  · -- names of two chains have different buckets
    apply List.Pairwise.imp _ List.nodup_range
    intro i j hij name hi hj
    obtain ⟨t, ht, rfl⟩ := List.mem_map.mp hi
    obtain ⟨t', ht', heq⟩ := List.mem_map.mp hj
    apply hij
    rw [← tab.bucket_eq i t ht, ← tab.bucket_eq j t' ht', heq]

/-- No tuple comes twice. -/
private theorem nodup_tuples (tab : Table d) : tab.tuples.Nodup :=
  List.Nodup.of_map _ tab.nodup_keys_tuples

/-- The table is a list of tuples to look in. -/
theorem lookup_tuples (tab : Table d) (name : CString) :
    tab.tuples.lookup name = tab.get name := by
  apply Option.ext
  intro value
  rw [Assoc.lookup_eq_some tab.nodup_keys_tuples, mem_tuples]

/-- A list that reads as the table does holds its tuples. -/
private theorem tuples_perm (tab : Table d) {l : List Tuple} (hl : (Assoc.keys l).Nodup)
    (hget : ∀ name, l.lookup name = tab.get name) : tab.tuples.Perm l := by
  apply (List.perm_ext_iff_of_nodup tab.nodup_tuples (List.Nodup.of_map _ hl)).mpr
  intro t
  rw [mem_tuples, ← hget, Assoc.lookup_eq_some hl]

/-- What all tuples take in the data area. -/
def size (tab : Table d) : Nat := Pack.total tupleSize tab.tuples

/-- The empty table has no size. -/
@[simp] theorem size_empty : (empty : Table d).size = 0 := by
  have hnil : (empty : Table d).tuples.Perm [] :=
    tuples_perm _ List.nodup_nil fun _ => rfl
  rw [size, Pack.total_perm tupleSize hnil]
  rfl

/-- A new name adds the size of its tuple. -/
theorem size_set (tab : Table d) {name : CString} (value : CString) (h : tab.get name = none) :
    (tab.set name value).size = tupleSize (name, value) + tab.size := by
  have hnew : name ∉ Assoc.keys tab.tuples := by
    rw [← Assoc.lookup_eq_none, lookup_tuples]
    exact h
  -- the new tuple is one more, wherever its chain is
  have hperm : (tab.set name value).tuples.Perm ((name, value) :: tab.tuples) := by
    have hkeys : (Assoc.keys ((name, value) :: tab.tuples)).Nodup :=
      List.nodup_cons.mpr ⟨hnew, tab.nodup_keys_tuples⟩
    apply tuples_perm _ hkeys
    intro name'
    rw [Assoc.lookup_cons, lookup_tuples, get_set]
    by_cases heq : name' = name
    · rw [if_pos heq, if_pos heq.symm]
    · rw [if_neg heq, if_neg fun h => heq h.symm]
  rw [size, Pack.total_perm tupleSize hperm, Pack.total_cons, size]

end Table

end HandsomeMod.Native.Nvram

/-!
## The data area of an NVRAM image

`nvram_commit` writes the tuples that fit as `name=value` strings; `_nvram_rehash` reads them back
up to the double NUL.
-/

namespace HandsomeMod.Native.Nvram

open ForStd

variable {d : Device}

/-! ### Writing -/

/-- A tuple takes its size. -/
private theorem length_tupleBytes (t : Tuple) : (tupleBytes t).length = tupleSize t := by
  simp only [tupleBytes, tupleSize, strlen, List.length_append, List.length_cons, List.length_nil]
  omega

/-- The strings of a list of tuples. -/
def encode (ts : List Tuple) : List UInt8 := ts.flatMap tupleBytes

/-- The bytes of two lists of tuples follow one another. -/
private theorem encode_append (ts ts' : List Tuple) : encode (ts ++ ts') = encode ts ++ encode ts'
    :=
  List.flatMap_append

/-- The bytes of a list of tuples are as many as their sizes. -/
theorem length_encode (ts : List Tuple) : (encode ts).length = Pack.total tupleSize ts := by
  induction ts with
  | nil => rfl
  | cons t ts ih =>
    have hcons : encode (t :: ts) = tupleBytes t ++ encode ts := List.flatMap_cons
    rw [hcons, List.length_append, length_tupleBytes, ih, Pack.total_cons]

/-- A bucket is written as far as there is room. -/
private theorem writeChain_eq (data stop : Nat) (area : List UInt8) (ts : List Tuple) :
    writeChain data stop area ts =
      area ++ encode (Pack.fit tupleSize (stop - data) area.length ts) := by
  induction ts generalizing area with
  | nil => simp [writeChain, Pack.fit, encode]
  | cons t ts ih =>
    have hsize : tupleSize t = strlen t.1 + 1 + strlen t.2 + 1 := rfl
    rw [writeChain, Pack.fit]
    by_cases hfit : data + area.length + strlen t.1 + 1 + strlen t.2 + 1 > stop
    · rw [if_pos hfit, if_pos (by omega)]
      exact (List.append_nil area).symm
    · rw [if_neg hfit, if_neg (by omega), ih, List.length_append, length_tupleBytes,
        List.append_assoc]
      rfl

/-- The bytes of the data area in front of the double NUL. -/
def capacity (d : Device) (offset : Nat) : Nat := d.partSize - 2 - (offset + sizeofHeader)

/-- The tuples that the data area takes: of every chain those in front of the first one that does
    not fit. -/
def packed (h : Handle d) : List Tuple :=
  Pack.fitAll tupleSize (capacity d h.offset) 0 ((List.range numBuckets).map h.table.chain)

/-- What the packed tuples take. -/
def used (h : Handle d) : Nat := Pack.total tupleSize (packed h)

/-- The table is written as far as there is room. -/
theorem writeTuples_eq (h : Handle d) :
    writeTuples (h.offset + sizeofHeader) (d.partSize - 2) h.table = encode (packed h) := by
  -- each chain goes on where the one before it ended
  have hfold : ∀ (is : List Nat) (area : List UInt8),
      is.foldl (fun area i => writeChain (h.offset + sizeofHeader) (d.partSize - 2) area
        (h.table.chain i)) area =
      area ++ encode (Pack.fitAll tupleSize (capacity d h.offset) area.length
        (is.map h.table.chain)) := by
    intro is
    induction is with
    | nil =>
      intro area
      exact (List.append_nil area).symm
    | cons i is ih =>
      intro area
      rw [List.foldl_cons, ih, writeChain_eq, List.map_cons, Pack.fitAll, encode_append,
        List.length_append, length_encode, List.append_assoc]
      rfl
  exact hfold _ []

/-- What is written keeps to the capacity. -/
theorem used_le (h : Handle d) : used h ≤ capacity d h.offset := by
  have hle := Pack.total_fitAll_le (w := tupleSize)
    ((List.range numBuckets).map h.table.chain) (Nat.zero_le (capacity d h.offset))
  rwa [Nat.zero_add] at hle

/-- If all tuples fit, all are packed. -/
theorem packed_eq_tuples {h : Handle d} (hsize : h.table.size ≤ capacity d h.offset) :
    packed h = h.table.tuples := by
  apply Pack.fitAll_eq_flatten
  rw [Nat.zero_add]
  exact hsize

/-- A table with room is written whole. -/
theorem used_eq_size {h : Handle d} (hsize : h.table.size ≤ capacity d h.offset) :
    used h = h.table.size := by
  rw [used, packed_eq_tuples hsize, Table.size]

/-- What is written is in the order of the table. -/
theorem sublist_packed (h : Handle d) : (packed h).Sublist h.table.tuples :=
  Pack.sublist_fitAll 0 _

/-- If the tuples take more than the data area has, one is not packed. -/
theorem exists_notMem_packed {h : Handle d} (hsize : capacity d h.offset < h.table.size) :
    ∃ t ∈ h.table.tuples, t ∉ packed h := by
  apply Pack.exists_notMem_fitAll (Nat.zero_le _) h.table.nodup_tuples
  rw [Nat.zero_add]
  exact hsize

/-! ### Reading back -/

/-- What stands in front of the first stop. -/
private theorem takeWhile_stop (p : UInt8 → Bool) {l : List UInt8} {c : UInt8} (rest : List UInt8)
    (hl : ∀ b ∈ l, p b = true) (hc : p c = false) : (l ++ c :: rest).takeWhile p = l := by
  rw [List.takeWhile_append_of_pos hl, List.takeWhile_cons_of_neg (by simp [hc]),
    List.append_nil]

/-- A string has no NUL. -/
private theorem ne_zero_of_mem (s : CString) : ∀ b ∈ s.1, (b != 0) = true := by
  intro b hb
  rw [bne_iff_ne]
  intro heq
  exact s.2 (heq ▸ hb)

/-- A string with its NUL is read. -/
private theorem cstr_append (s : CString) (rest : List UInt8) : cstr (s.1 ++ 0 :: rest) = s :=
  Subtype.ext (takeWhile_stop _ rest (ne_zero_of_mem s) rfl)

/-- The name in front of the equals sign. -/
private theorem nameOf_append {s : CString} (hs : eqSign ∉ s.1) (rest : List UInt8) :
    nameOf (s.1 ++ eqSign :: rest) = s := by
  apply Subtype.ext
  apply takeWhile_stop _ rest _ rfl
  intro b hb
  have hne : b ≠ eqSign := fun heq => hs (heq ▸ hb)
  rw [ne_zero_of_mem s b hb, Bool.true_and, bne_iff_ne]
  exact hne

/-- Reading one tuple. -/
theorem parse_tupleBytes (fuel : Nat) {t : Tuple} (ht : eqSign ∉ t.1.1) (rest : List UInt8) :
    parse (fuel + 1) (tupleBytes t ++ rest) = (parse fuel rest).map (t :: ·) := by
  have hbytes : tupleBytes t ++ rest = t.1.1 ++ eqSign :: (t.2.1 ++ 0 :: rest) := by
    simp [tupleBytes]
  have hname := nameOf_append ht (t.2.1 ++ 0 :: rest)
  have hvalue := cstr_append t.2 rest
  have hdrop : (t.1.1 ++ eqSign :: (t.2.1 ++ 0 :: rest)).drop (strlen t.1) =
      eqSign :: (t.2.1 ++ 0 :: rest) := List.drop_left
  -- the string is not empty: the name may be, the `=` is there
  have hhead : ∃ c l, t.1.1 ++ eqSign :: (t.2.1 ++ 0 :: rest) = c :: l ∧ c ≠ 0 := by
    cases hlist : t.1.1 with
    | nil => exact ⟨_, _, rfl, by decide⟩
    | cons c l =>
      refine ⟨c, _, rfl, fun heq => t.1.2 ?_⟩
      rw [hlist, heq]
      exact List.mem_cons_self ..
  obtain ⟨c, l, hcons, hc⟩ := hhead
  have hmore : (t.2.1 ++ 0 :: rest).drop (strlen t.2 + 1) = rest := by
    rw [List.drop_append]
    simp [strlen]
  rw [hbytes, hcons, parse]
  rw [← hcons, hname, hdrop]
  simp only [hc, ↓reduceIte]
  rw [if_neg (by decide), hvalue, if_pos (by simp [strlen]), hmore]
  cases parse fuel rest with
  | error e => rfl
  | ok more => rfl

/-- What was written is read back. -/
theorem parse_encode {ts : List Tuple} (hts : ∀ t ∈ ts, eqSign ∉ t.1.1) {fuel : Nat}
    (hfuel : ts.length < fuel) (rest : List UInt8) :
    parse fuel (encode ts ++ 0 :: rest) = .ok ts := by
  induction ts generalizing fuel with
  | nil =>
    obtain ⟨fuel, rfl⟩ := Nat.exists_eq_add_one_of_ne_zero (Nat.ne_zero_of_lt hfuel)
    rfl
  | cons t ts ih =>
    rw [List.length_cons] at hfuel
    obtain ⟨fuel, rfl⟩ := Nat.exists_eq_add_one_of_ne_zero (Nat.ne_zero_of_lt hfuel)
    have hcons : encode (t :: ts) = tupleBytes t ++ encode ts := List.flatMap_cons
    rw [hcons, List.append_assoc, parse_tupleBytes fuel (hts t (List.mem_cons_self ..)),
      ih (fun t ht => hts t (List.mem_cons_of_mem _ ht)) (by omega)]
    rfl

/-- The names that are read have no `=`. -/
theorem eqSign_notMem_of_parse {fuel : Nat} {l : List UInt8} {ts : List Tuple}
    (h : parse fuel l = .ok ts) : ∀ t ∈ ts, eqSign ∉ t.1.1 := by
  -- a name ends at the first `=`, so it has none
  induction fuel generalizing l ts with
  | zero => cases h
  | succ fuel ih =>
    cases l with
    | nil => cases h
    | cons c l =>
      simp only [parse] at h
      split at h
      · cases h
        intro t ht
        cases ht
      · split at h
        · cases h
        · rename_i eq value hdrop
          split at h
          · cases h
            intro t ht
            cases ht
          · split at h
            · cases hmore : parse fuel (value.drop (strlen (cstr value) + 1)) with
              | error e =>
                rw [hmore] at h
                cases h
              | ok more =>
                rw [hmore] at h
                cases h
                intro t ht
                obtain rfl | ht := List.mem_cons.mp ht
                · intro hmem
                  have hp := List.mem_takeWhile_imp hmem
                  simp at hp
                · exact ih hmore t ht
            · cases h

/-- A name with `=` is read back as a shorter one. -/
private theorem exists_reread (t : Tuple) : ∃ t' :
    Tuple, eqSign ∉ t'.1.1 ∧ tupleBytes t' = tupleBytes t := by
  have hmem : eqSign ∈ t.1.1 ++ eqSign :: t.2.1 := List.mem_append_right _ (List.mem_cons_self ..)
  -- the first `=` splits the text again
  obtain ⟨name, value, heq, hname⟩ := List.eq_append_cons_of_mem hmem
  have hzero : 0 ∉ t.1.1 ++ eqSign :: t.2.1 := by
    intro h0
    obtain h0 | h0 := List.mem_append.mp h0
    · exact t.1.2 h0
    · obtain h0 | h0 := List.mem_cons.mp h0
      · cases h0
      · exact t.2.2 h0
  rw [heq] at hzero
  refine ⟨(⟨name, fun h0 => hzero (List.mem_append_left _ h0)⟩,
    ⟨value, fun h0 => hzero (List.mem_append_right _ (List.mem_cons_of_mem _ h0))⟩), hname, ?_⟩
  simp only [tupleBytes]
  rw [heq]

/-- Names with an equals sign are read again as shorter ones. -/
theorem exists_reread_list (ts : List Tuple) :
    ∃ ts' : List Tuple, (∀ t ∈ ts', eqSign ∉ t.1.1) ∧ encode ts' = encode ts := by
  induction ts with
  | nil => exact ⟨[], by simp, rfl⟩
  | cons t ts ih =>
    obtain ⟨ts', hts', henc⟩ := ih
    obtain ⟨t', ht', hbytes⟩ := exists_reread t
    refine ⟨t' :: ts', ?_, ?_⟩
    · intro u hu
      obtain rfl | hu := List.mem_cons.mp hu
      · exact ht'
      · exact hts' u hu
    · show tupleBytes t' ++ encode ts' = tupleBytes t ++ encode ts
      rw [hbytes, henc]

/-- A tuple takes a byte at least. -/
theorem length_le_encode (ts : List Tuple) : ts.length ≤ (encode ts).length := by
  induction ts with
  | nil => exact Nat.zero_le _
  | cons t ts ih =>
    have hcons : encode (t :: ts) = tupleBytes t ++ encode ts := List.flatMap_cons
    have hpos : 0 < tupleSize t := Nat.succ_pos _
    rw [hcons, List.length_append, length_tupleBytes, List.length_cons]
    omega

/-! ### The padding -/

/-- The padding by address; `int` is negative from 2^31 on. -/
theorem padLen_eq (addr : Nat) : padLen addr =
    if addr % 4 = 0 then 0 else if addr % 2 ^ 32 < 2 ^ 31 then 4 - addr % 4 else 8 - addr % 4 := by
  have hmod : addr % 2 ^ 32 % 4 = addr % 4 := Nat.mod_mod_of_dvd addr (by decide)
  have hlt : addr % 2 ^ 32 < 2 ^ 32 := Nat.mod_lt _ (by decide)
  simp only [padLen]
  generalize addr % 2 ^ 32 = a at hmod hlt
  by_cases hlow : a < 2 ^ 31
  -- the address is not negative as an `int`
  · have htmod : ((a : Int)).tmod 4 = ((a % 4 : Nat) : Int) := by
      rw [Int.tmod_eq_emod_of_nonneg (by omega)]
      rfl
    rw [if_pos hlow, htmod, if_pos hlow, hmod]
    split <;> split <;> omega
  -- the remainder has the sign of the address
  · have htmod : ((a : Int) - 2 ^ 32).tmod 4 = -(((2 ^ 32 - a) % 4 : Nat) : Int) := by
      have hneg : (a : Int) - 2 ^ 32 = -((2 ^ 32 - a : Nat) : Int) := by omega
      rw [hneg, Int.neg_tmod, Int.tmod_eq_emod_of_nonneg (by omega)]
      rfl
    rw [if_neg hlow, htmod, if_neg hlow]
    split <;> split <;> omega

end HandsomeMod.Native.Nvram
