import HandsomeMod.ForStd.Except
import HandsomeMod.Native.TffsRead

/-!
# When TFFS 2 is read inside the file

The walk over the entries of a file ends, and reads only bytes of the file, exactly if each header
that it comes to is whole, the entry that it looks for ends inside the file, and so do the names of
the name table.
-/

namespace HandsomeMod.Native.TffsRead

open ForStd

variable {c : Cfg} {buffer : List UInt8} {id : Nat}

/-! ### Headers -/

/-- The field at an offset as it is in the file. -/
def rawField (c : Cfg) (buffer : List UInt8) (off : Nat) : Nat :=
  c.endian.load 2 fun i => buffer.getD (off + i) 0

/-- The id of the entry at `pos` -/
def idAt (c : Cfg) (buffer : List UInt8) (pos : Nat) : Nat := headerField c (rawField c buffer pos)

/-- The length of the entry at `pos` -/
def lenAt (c : Cfg) (buffer : List UInt8) (pos : Nat) : Nat :=
  headerField c (rawField c buffer (pos + 2))

/-- A field inside of the buffer is read. -/
private theorem readUint16_of_le {off : Nat} (h : off + 2 ≤ buffer.length) :
    readUint16 c buffer off = .ok (rawField c buffer off) := by
  rw [readUint16, if_pos h]
  rfl

/-- A field that goes past the buffer is read outside. -/
private theorem readUint16_of_lt {off : Nat} (h : buffer.length < off + 2) :
    readUint16 c buffer off = .error .outOfBounds := by
  rw [readUint16, if_neg (by omega)]

/-! ### The value of an entry -/

/-- A byte inside of the buffer is read. -/
private theorem readUint8_of_lt {off : Nat} (h : off < buffer.length) :
    readUint8 buffer off = .ok (buffer.get ⟨off, h⟩) := by
  rw [readUint8, List.getElem?_eq_getElem h]
  rfl

/-- A byte behind the buffer is read outside. -/
private theorem readUint8_of_le {off : Nat} (h : buffer.length ≤ off) :
    readUint8 buffer off = .error .outOfBounds := by
  rw [readUint8, List.getElem?_eq_none h]

/-- A loop over bytes reads them all, or comes to one outside of the file. -/
private theorem mapM_readUint8_iff (off : Nat) (l : List Nat) :
    (∃ out, l.mapM (fun i => readUint8 buffer (off + i)) = .ok out) ↔
      ∀ i ∈ l, off + i < buffer.length := by
  induction l with
  | nil => exact ⟨fun _ i hi => absurd hi List.not_mem_nil, fun _ => ⟨[], rfl⟩⟩
  | cons i l ih =>
    rw [List.mapM_cons, List.forall_mem_cons, ← ih]
    -- one byte is read, then the rest
    by_cases hlt : off + i < buffer.length
    · rw [readUint8_of_lt hlt, ok_bind]
      constructor
      · rintro ⟨out, hout⟩
        obtain ⟨rest, hrest, -⟩ := bind_ok hout
        exact ⟨hlt, rest, hrest⟩
      · rintro ⟨-, rest, hrest⟩
        rw [hrest, ok_bind]
        exact ⟨_, rfl⟩
    · rw [readUint8_of_le (by omega)]
      constructor
      · rintro ⟨out, hout⟩
        cases hout
      · rintro ⟨hin, -⟩
        exact absurd hin hlt

/-- A value is printed inside exactly if it is in the buffer. -/
private theorem printEntryValue_iff (entry : Nat) :
    (∃ out, printEntryValue c buffer entry = .ok out) ↔
      entry + 4 ≤ buffer.length ∧ entry + 4 + lenAt c buffer entry ≤ buffer.length := by
  rw [printEntryValue]
  -- the length is read from the header of the entry, then the value by its length
  by_cases hle : entry + 2 + 2 ≤ buffer.length
  · have hlen : headerField c (rawField c buffer (entry + 2)) = lenAt c buffer entry := rfl
    rw [readUint16_of_le hle, ok_bind, mapM_readUint8_iff, hlen]
    simp only [List.mem_range, sizeofEntryHeader]
    constructor
    · intro h
      refine ⟨hle, ?_⟩
      by_contra hgt
      have hlast := h (lenAt c buffer entry - 1) (by omega)
      omega
    · rintro ⟨-, hlen⟩ i hi
      omega
  · rw [readUint16_of_lt (by omega)]
    constructor
    · rintro ⟨out, hout⟩
      cases hout
    · rintro ⟨hhead, -⟩
      omega

/-! ### The walk over the entries -/

/-- The header behind the one at `pos`, where the walk for an id goes on. -/
def nextEntry (c : Cfg) (buffer : List UInt8) (id pos : Nat) : Option Nat :=
  if buffer.length < pos + 4 ∨ idAt c buffer pos = id ∨ rawField c buffer pos = tffsIdEnd then none
  else
    let next := (pos + 4 + (getWalkSize (UInt32.ofNat (lenAt c buffer pos))).toNat) % 2 ^ 32
    if next < buffer.length then some next else none

/-- An id that goes past the buffer is read outside. -/
private theorem findTurn_short {pos : UInt32} (h : buffer.length < pos.toNat + 2) :
    findTurn c buffer id pos = .inl (.error .outOfBounds) := by
  rw [findTurn, readUint16_of_lt h]

/-- The search ends at the id. -/
private theorem findTurn_found {pos : UInt32} (h : pos.toNat + 2 ≤ buffer.length)
    (hid : idAt c buffer pos.toNat = id) :
    findTurn c buffer id pos = .inl (.ok (some pos.toNat)) := by
  rw [findTurn, readUint16_of_le h]
  exact if_pos hid

/-- A length that goes past the buffer is read outside. -/
private theorem findTurn_cut {pos : UInt32} (h : pos.toNat + 2 ≤ buffer.length)
    (hlt : buffer.length < pos.toNat + 4) (hid : idAt c buffer pos.toNat ≠ id) :
    findTurn c buffer id pos = .inl (.error .outOfBounds) := by
  rw [findTurn, readUint16_of_le h, readUint16_of_lt (by omega)]
  exact if_neg hid

/-- Another entry is passed. -/
private theorem findTurn_other {pos : UInt32} (h : pos.toNat + 4 ≤ buffer.length)
    (hid : idAt c buffer pos.toNat ≠ id) :
    findTurn c buffer id pos =
      let next := pos + 4 + getWalkSize (UInt32.ofNat (lenAt c buffer pos.toNat))
      if next.toNat < buffer.length ∧ rawField c buffer pos.toNat ≠ tffsIdEnd then .inr next
      else .inl (.ok none) := by
  rw [findTurn, readUint16_of_le (by omega), readUint16_of_le (by omega)]
  exact if_neg hid

/-- A turn of the search moves by the length of the entry. -/
private theorem nextEntry_eq (c : Cfg) (buffer : List UInt8) (id : Nat) (pos : UInt32) :
    (findTurn c buffer id pos).getRight?.map UInt32.toNat = nextEntry c buffer id pos.toNat := by
  rw [nextEntry]
  by_cases hshort : buffer.length < pos.toNat + 2
  · rw [findTurn_short hshort, if_pos (.inl (by omega))]
    rfl
  by_cases hid : idAt c buffer pos.toNat = id
  · rw [findTurn_found (by omega) hid, if_pos (.inr (.inl hid))]
    rfl
  by_cases hcut : buffer.length < pos.toNat + 4
  · rw [findTurn_cut (by omega) hcut hid, if_pos (.inl hcut)]
    rfl
  -- positions are counted modulo `2 ^ 32`
  have hnext : ∀ n : UInt32, (pos + 4 + n).toNat = (pos.toNat + 4 + n.toNat) % 2 ^ 32 := by
    intro n
    rw [UInt32.toNat_add, UInt32.toNat_add, Nat.mod_add_mod]
    rfl
  rw [findTurn_other (by omega) hid]
  by_cases hend : rawField c buffer pos.toNat = tffsIdEnd
  · simp [hend]
  · simp only [hnext, hend, hid, hcut, false_or, ne_eq, not_false_eq_true, and_true, if_false]
    split
    · rw [Sum.getRight?_inr, Option.map_some, hnext]
    · rfl

/-! ### The walk over the names -/

/-- The name behind the one at `pos` of the name table at `entry`. -/
def nextName (c : Cfg) (buffer : List UInt8) (entry pos : Nat) : Option Nat :=
  match strlen buffer (entry + 4 + (pos + 4) % 2 ^ 32) with
  | none => none
  | some len =>
    let next := (pos + 4 + (getWalkSize (UInt32.ofNat (len + 1))).toNat) % 2 ^ 32
    if entry + 4 ≤ buffer.length ∧ next < lenAt c buffer entry then some next else none

/-- A name without end is read outside. -/
private theorem namesTurn_unended {entry : Nat} {s : KeyNames}
    (h : strlen buffer (entry + 4 + (s.pos + 4).toNat) = none) :
    namesTurn c buffer entry s = .inl (.error .outOfBounds) := by
  rw [namesTurn, sizeofEntryHeader]
  simp only [h]

/-- A name is taken, and passed. -/
private theorem namesTurn_name {entry len : Nat} {s : KeyNames}
    (h : strlen buffer (entry + 4 + (s.pos + 4).toNat) = some len)
    (hentry : entry + 4 ≤ buffer.length) :
    namesTurn c buffer entry s =
      let next := s.pos + 4 + getWalkSize (UInt32.ofNat (len + 1))
      let entries := s.entries ++
        [{ id := entry + 4 + s.pos.toNat, val := entry + 4 + (s.pos + 4).toNat }]
      if next.toNat < lenAt c buffer entry then .inr { pos := next, entries := entries }
      else .inl (.ok entries) := by
  rw [namesTurn, sizeofEntryHeader]
  simp only [h]
  rw [readUint16_of_le (by omega)]
  rfl

/-- A name behind an entry that is cut is read outside. -/
private theorem namesTurn_cut {entry len : Nat} {s : KeyNames}
    (h : strlen buffer (entry + 4 + (s.pos + 4).toNat) = some len)
    (hentry : buffer.length < entry + 4) :
    namesTurn c buffer entry s = .inl (.error .outOfBounds) := by
  rw [namesTurn, sizeofEntryHeader]
  simp only [h]
  rw [readUint16_of_lt (by omega)]

/-- A turn over the names moves by the length of the name. -/
private theorem nextName_eq (c : Cfg) (buffer : List UInt8) (entry : Nat) (s : KeyNames) :
    (namesTurn c buffer entry s).getRight?.map (fun s => s.pos.toNat) =
      nextName c buffer entry s.pos.toNat := by
  have hoff : (s.pos.toNat + 4) % 2 ^ 32 = (s.pos + 4).toNat := by
    rw [UInt32.toNat_add]
    rfl
  rw [nextName, hoff]
  cases hlen : strlen buffer (entry + 4 + (s.pos + 4).toNat) with
  | none =>
    rw [namesTurn_unended hlen]
    rfl
  -- a name is passed with its number in front and its padding behind
  | some len =>
    have hnext : (s.pos.toNat + 4 + (getWalkSize (UInt32.ofNat (len + 1))).toNat) % 2 ^ 32 =
        (s.pos + 4 + getWalkSize (UInt32.ofNat (len + 1))).toNat := by
      rw [UInt32.toNat_add, ← hoff, Nat.mod_add_mod]
    by_cases hentry : entry + 4 ≤ buffer.length
    · rw [namesTurn_name hlen hentry]
      simp only [hnext, hentry, true_and]
      split
      · rfl
      · rfl
    · rw [namesTurn_cut hlen (by omega)]
      simp [hentry]

/-- A name behind the first one starts inside the name table. -/
private theorem visits_lt {entry n : Nat} (h : Loop.Visits (nextName c buffer entry) 0 n) :
    n = 0 ∨ n < lenAt c buffer entry := by
  rcases Relation.ReflTransGen.cases_tail h with heq | ⟨m, -, hm⟩
  · exact .inl heq
  · right
    rw [nextName] at hm
    split at hm
    · cases hm
    · simp only at hm
      split at hm
      -- the walk only steps to places inside the entry
      · next hlt =>
        obtain rfl := Option.some.inj hm
        exact hlt.2
      · cases hm

/-- A field has 16 bits. -/
private theorem headerField_load_lt (c : Cfg) (buffer : List UInt8) (off : Nat) :
    headerField c (rawField c buffer off) < 65536 := by
  rw [headerField, rawField]
  cases c.endian <;> cases c.swapBytes <;> exact loadBE_lt 2 _

/-! ### Inside the file -/

/-- The names of the table at `entry` end inside the file, and the walk over them ends. -/
structure NamesInside (c : Cfg) (buffer : List UInt8) (entry : Nat) : Prop where
  ends : ∀ n, Loop.Visits (nextName c buffer entry) 0 n →
    ∃ k, entry + 8 + n ≤ k ∧ buffer[k]? = some 0
  acyclic : Loop.Acyclic (nextName c buffer entry) 0

/-- What a file has to be like for a look at the entry with an id. -/
structure EntriesInside (c : Cfg) (buffer : List UInt8) (id : Nat) : Prop where
  header : ∀ pos, Loop.Visits (nextEntry c buffer id) 0 pos → pos + 4 ≤ buffer.length
  value : ∀ pos, Loop.Visits (nextEntry c buffer id) 0 pos → idAt c buffer pos = id →
    pos + 4 + lenAt c buffer pos ≤ buffer.length
  acyclic : Loop.Acyclic (nextEntry c buffer id) 0
  names : id = tffsIdTableName → ∀ pos, Loop.Visits (nextEntry c buffer id) 0 pos →
    idAt c buffer pos = id → NamesInside c buffer pos

/-- `find_entry` ends and stays inside the file, and so do `print_entry_value`, and for the name
table `parse_key_names`, with what it has found. -/
def ReadsInside (c : Cfg) (buffer : List UInt8) (id : Nat) : Prop :=
  ∃ fuel r, findEntry c buffer id fuel = some (.ok r) ∧ ∀ entry, r = some entry →
    (∃ out, printEntryValue c buffer entry = .ok out) ∧
    (id = tffsIdTableName →
      ∃ fuel names, parseKeyNames c buffer entry fuel = some (.ok names))

/-- A name ends inside exactly if there is a NUL. -/
private theorem strlen_isSome_iff (off : Nat) :
    (∃ len, strlen buffer off = some len) ↔ ∃ k, off ≤ k ∧ buffer[k]? = some 0 := by
  have hsome : (∃ len, strlen buffer off = some len) ↔ (strlen buffer off).isSome = true :=
    Option.isSome_iff_exists.symm
  rw [hsome, strlen, List.findIdx?_isSome, List.any_eq_true]
  constructor
  · rintro ⟨b, hb, hzero⟩
    obtain ⟨i, hi⟩ := List.mem_iff_getElem?.mp hb
    rw [List.getElem?_drop] at hi
    exact ⟨off + i, Nat.le_add_right off i, by rw [hi, eq_of_beq hzero]⟩
  · rintro ⟨k, hk, hzero⟩
    refine ⟨0, List.mem_iff_getElem?.mpr ⟨k - off, ?_⟩, rfl⟩
    rw [List.getElem?_drop, Nat.add_sub_cancel' hk, hzero]

/-- The names are read inside exactly if they are there. -/
private theorem parseKeyNames_iff {entry : Nat} (hentry : entry + 4 ≤ buffer.length) :
    (∃ fuel names, parseKeyNames c buffer entry fuel = some (.ok names)) ↔
      NamesInside c buffer entry := by
  have hnext := nextName_eq c buffer entry
  have hterm := Loop.terminates_iff_acyclic (s := (⟨0, []⟩ : KeyNames)) hnext
    fun s _ _ => s.pos.toNat_lt
  -- the position plus 4 does not wrap, it is bounded by the 16 bit length of the entry
  have hoff : ∀ n : UInt32, Loop.Visits (nextName c buffer entry) 0 n.toNat →
      entry + 4 + (n + 4).toNat = entry + 8 + n.toNat := by
    intro n hn
    have hlen := headerField_load_lt c buffer (entry + 2)
    have hlt := visits_lt hn
    rw [lenAt] at hlt
    have hadd : (n + 4).toNat = (n.toNat + 4) % 2 ^ 32 := by
      rw [UInt32.toNat_add]
      rfl
    omega
  constructor
  -- a name without its end would stop the run in a fault
  · rintro ⟨fuel, names, hrun⟩
    refine ⟨fun n hn => ?_, hterm.mp ⟨fuel, _, hrun⟩⟩
    obtain ⟨s, hreach, rfl⟩ := Loop.Visits.reaches (s := (⟨0, []⟩ : KeyNames)) hnext hn
    obtain ⟨fuel', hrun'⟩ := hreach.exists_run hrun
    rw [← hoff s.pos hn, ← strlen_isSome_iff]
    cases hlen : strlen buffer (entry + 4 + (s.pos + 4).toNat) with
    | some len => exact ⟨len, rfl⟩
    | none => cases Loop.eq_of_run_inl (namesTurn_unended hlen) hrun'
  · rintro ⟨hends, hacyclic⟩
    obtain ⟨fuel, r, hrun⟩ := hterm.mpr hacyclic
    obtain ⟨s, hreach, hturn⟩ := Loop.reaches_of_run hrun
    have hvisits := hreach.visits hnext
    obtain ⟨len, hlen⟩ := (strlen_isSome_iff (entry + 8 + s.pos.toNat)).mpr (hends _ hvisits)
    rw [← hoff s.pos hvisits] at hlen
    rw [namesTurn_name hlen hentry] at hturn
    simp only at hturn
    split at hturn
    · cases hturn
    · obtain rfl := Sum.inl.inj hturn
      exact ⟨fuel, _, hrun⟩

/-- The search ends exactly if the lengths do not lead back. -/
private theorem terminates_findTurn_iff (c : Cfg) (buffer : List UInt8) (id : Nat) :
    Loop.Terminates (findTurn c buffer id) 0 ↔ Loop.Acyclic (nextEntry c buffer id) 0 :=
  Loop.terminates_iff_acyclic (nextEntry_eq c buffer id) fun s _ _ => s.toNat_lt

/-- A lookup that stays inside has its entries there. -/
theorem entriesInside_of_reads (h : ReadsInside c buffer id) : EntriesInside c buffer id := by
  have hnext := nextEntry_eq c buffer id
  have hterm := terminates_findTurn_iff c buffer id
  obtain ⟨fuel, r, hrun, hr⟩ := h
  -- a place that is visited is read, or the run would have ended with an error
  have hvisit : ∀ pos, Loop.Visits (nextEntry c buffer id) 0 pos →
      pos + 4 ≤ buffer.length ∧ (idAt c buffer pos = id → r = some pos) := by
    intro pos hpos
    obtain ⟨s, hreach, rfl⟩ := Loop.Visits.reaches (s := (0 : UInt32)) hnext hpos
    obtain ⟨fuel', hrun'⟩ := hreach.exists_run hrun
    by_cases hshort : buffer.length < s.toNat + 2
    · cases Loop.eq_of_run_inl (findTurn_short hshort) hrun'
    by_cases hid : idAt c buffer s.toNat = id
    · -- the entry is found, so that its length is read
      have hfound := Loop.eq_of_run_inl (findTurn_found (by omega) hid) hrun'
      obtain rfl := (Except.ok.inj hfound).symm
      have hprint := (printEntryValue_iff _).mp (hr s.toNat rfl).1
      exact ⟨hprint.1, fun _ => rfl⟩
    · by_cases hcut : buffer.length < s.toNat + 4
      · cases Loop.eq_of_run_inl (findTurn_cut (by omega) hcut hid) hrun'
      · exact ⟨by omega, fun h => absurd h hid⟩
  refine ⟨fun pos hpos => (hvisit pos hpos).1, fun pos hpos hid => ?_,
    hterm.mp ⟨fuel, _, hrun⟩, fun hname pos hpos hid => ?_⟩
  · obtain ⟨hprint, -⟩ := hr pos ((hvisit pos hpos).2 hid)
    exact ((printEntryValue_iff pos).mp hprint).2
  · obtain ⟨-, hnames⟩ := hr pos ((hvisit pos hpos).2 hid)
    exact (parseKeyNames_iff (hvisit pos hpos).1).mp (hnames hname)

/-- A lookup with its entries inside stays there. -/
theorem reads_of_entriesInside (h : EntriesInside c buffer id) : ReadsInside c buffer id := by
  have hnext := nextEntry_eq c buffer id
  have hterm := terminates_findTurn_iff c buffer id
  obtain ⟨hheader, hvalue, hacyclic, hnames⟩ := h
  obtain ⟨fuel, a, hrun⟩ := hterm.mpr hacyclic
  obtain ⟨s, hreach, hturn⟩ := Loop.reaches_of_run hrun
  have hvisits := hreach.visits hnext
  -- the loop ends where its last turn stands, which is a position that it visits
  have hhead := hheader _ hvisits
  by_cases hid : idAt c buffer s.toNat = id
  · rw [findTurn_found (by omega) hid] at hturn
    obtain rfl := Sum.inl.inj hturn
    refine ⟨fuel, _, hrun, fun entry hentry => ?_⟩
    obtain rfl := Option.some.inj hentry
    exact ⟨(printEntryValue_iff _).mpr ⟨hhead, hvalue _ hvisits hid⟩,
      fun hname => (parseKeyNames_iff hhead).mpr (hnames hname _ hvisits hid)⟩
  · rw [findTurn_other hhead hid] at hturn
    simp only at hturn
    split at hturn
    · cases hturn
    · obtain rfl := Sum.inl.inj hturn
      exact ⟨fuel, none, hrun, fun entry hentry => absurd hentry (by simp)⟩

/-- A look at an entry ends and stays inside the file exactly if the headers, the value and the names
that it comes to do. -/
theorem readsInside_iff (c : Cfg) (buffer : List UInt8) (id : Nat) :
    ReadsInside c buffer id ↔ EntriesInside c buffer id :=
  ⟨entriesInside_of_reads, reads_of_entriesInside⟩

/-! ### A file that ends in a header -/

/-- An empty entry, and two bytes of the next header -/
def cutFile : List UInt8 := [0x01, 0x00, 0x00, 0x00, 0x02, 0x00]

/-- The length of the second header is read behind the file. -/
theorem cutFile_not_inside :
    ¬ReadsInside { endian := .little, swapBytes := false } cutFile tffsIdTableName := by
  intro h
  have hnext : nextEntry { endian := .little, swapBytes := false } cutFile tffsIdTableName 0 =
      some 4 := by decide
  exact absurd ((entriesInside_of_reads h).header 4 (.single hnext)) (by decide)

end HandsomeMod.Native.TffsRead
