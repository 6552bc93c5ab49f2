import HandsomeMod.ForStd.Except
import HandsomeMod.Native.Trx

/-!
# Consistent images from `trx`

The options move one position over a buffer, and what they wrote in front of it stays. Files are
compared with the end of the buffer. The other options are not, nor is the number of files, and
`-a` takes the remainder by a mask: `St.Good` is what an option needs for the image to be
consistent.
-/

namespace HandsomeMod.Native.Trx

open ForStd

variable {w : Nat}

/-! ### The property -/

/-- How many files the header has offsets for. -/
def limit (trxVersion : Nat) : Nat := if trxVersion = 2 then 4 else 3

/-- A little-endian word. -/
def wordAt (m : Mem) (pos : Nat) : Nat := loadLE 4 fun k => m (pos + k)

/-- A file of `-f` at its position, and whether `-x` moved back over it. -/
structure Piece where
  pos : Nat
  content : List UInt8
  moved : Bool

/-- What the options ask for. -/
structure Layout where
  pieces : List Piece
  mark : Option Nat

/-- `-x` moves back to `pos`. -/
def Piece.back (pos : Nat) (p : Piece) : Piece :=
  { p with moved := p.moved || decide (pos < p.pos + p.content.length) }

/-- What one option adds at position `curLen`. -/
def Layout.step (g : Layout) (curLen : Nat) : Opt w → Layout
  | .file (some content) => { g with pieces := g.pieces ++ [⟨curLen, content, false⟩] }
  | .fsmark _ => { g with mark := some curLen }
  | .relative (some n) =>
    if n.toInt < 0 then { g with pieces := g.pieces.map (.back (curLen - (-n.toInt).toNat)) } else g
  | _ => g

/-- What the options add from a state on. -/
def layout (g : Layout) (s : St) : List (Opt w) → Layout
  | [] => g
  | o :: opts =>
    match s.step o with
    | .ok s' => layout (g.step s.curLen o) s' opts
    | .error _ => g

/-- The image as memory. -/
def image (out : List UInt8) : Mem := fun a => out.getD a 0

/-- What the CRC is taken of: the bytes 12 to `len - 1`, and in version 2 eight bytes of the
    bin-header are 0xff. -/
def covered (trxVersion : Nat) (out : List UInt8) : List UInt8 :=
  let m :=
    if trxVersion = 2 then
      writeBytes (image out) (wordAt (image out) (offsetsOffset 3) + 22) (List.replicate 8 0xff)
    else image out
  bytesAt m flagVersionOffset (wordAt (image out) lenOffset - flagVersionOffset)

structure Consistent (trxVersion : Nat) (g : Layout) (out : List UInt8) : Prop where
  count : g.pieces.length ≤ limit trxVersion
  placed : ∀ j p, g.pieces[j]? = some p → wordAt (image out) (offsetsOffset j) = p.pos
  unchanged : ∀ p ∈ g.pieces, p.moved = false → (out.drop p.pos).take p.content.length = p.content
  unused : ∀ j, g.pieces.length ≤ j → j < limit trxVersion →
    wordAt (image out) (offsetsOffset j) = 0
  len : wordAt (image out) lenOffset = g.mark.getD out.length
  len_le : wordAt (image out) lenOffset ≤ out.length
  crc32 : wordAt (image out) crc32Offset =
    (Crc.accumulate 0xffffffff (covered trxVersion out)).toNat

/-- No access leaves the buffer, `-a n` moves to a multiple of `n`, and the image is consistent. -/
def Holds (heap : Mem) (opts : List (Opt w)) (written : Bool) : Prop :=
  main heap opts written ≠ .error .fault ∧
  (∀ pre n post s, opts = pre ++ .align (some n) :: post → n ≠ 0 →
    (St.init heap).run (pre ++ [.align (some n)]) = .ok s → n.toNat ∣ s.curLen) ∧
  ∀ s out, (St.init heap).run opts = .ok s → s.finish written = .ok out →
    Consistent s.trxVersion (layout ⟨[], none⟩ (St.init heap) opts) out

/-! ### The condition -/

/-- The position can be moved forward to `pos`. -/
def St.Fits (s : St) (pos : Nat) : Prop := pos ≤ s.maxlen ∧ pos < 2 ^ 32

/-- A file that is not found too large fits together with its padding. -/
def St.FileFits (s : St) (content : List UInt8) : Prop :=
  s.curLen + content.length < s.maxlen →
    s.Fits (s.curLen + (content.length + pad4 content.length))

def St.headerSize (s : St) : Nat := offsetsOffset (limit s.trxVersion)

/-- What an option needs in front of it. -/
def St.Good (s : St) : Opt w → Prop
  | .maxlen (some n) _ => 0x1000 ≤ (roundMaxlen n).toNat → s.curLen ≤ (roundMaxlen n).toNat
  | .align (some n) =>
    let c := BitVec.ofNat w s.curLen &&& (n - 1)
    -- the mask gives the remainder, as it does for powers of 2
    c.toNat = s.curLen % n.toNat ∧ (c ≠ 0 → s.Fits (s.curLen + (n - c).toNat))
  | .absolute (some n) => s.curLen ≤ n.toNat → s.Fits n.toNat
  | .relative (some n) =>
    if n.toInt < 0 then s.headerSize ≤ s.curLen + n.toInt else s.Fits (s.curLen + n.toNat)
  | .file (some content) =>
    (s.curLen + content.length < s.maxlen → s.i < limit s.trxVersion) ∧ s.FileFits content
  | .append (some content) => s.FileFits content
  | .fsmark (some content) => s.FileFits content
  | _ => True

/-- The padding behind the options. -/
def pad4096 (n : Nat) : Nat := if n % 0x1000 ≠ 0 then 0x1000 - n % 0x1000 else 0

/-- What is needed behind the options: no more than four files if version 2 is asked for, and no
    less, and otherwise memory that is 0 where offsets are unused. -/
def St.GoodFinish (heap : Mem) (s : St) : Prop :=
  s.opened = true →
    s.curLen + pad4096 s.curLen < 2 ^ 32 ∧ s.fsmark ≤ s.curLen + pad4096 s.curLen ∧
      if s.trxVersion = 2 then s.i = 4 ∧ s.offset3 ≤ s.curLen + pad4096 s.curLen
      else ∀ a, offsetsOffset s.i ≤ a → a < offsetsOffset 3 → heap a = 0

/-- Every option of a run meets its condition. -/
def GoodRun (heap : Mem) (s : St) : List (Opt w) → Prop
  | [] => s.GoodFinish heap
  | o :: opts => s.Good o ∧ ∀ s', s.step o = .ok s' → GoodRun heap s' opts

instance (s : St) (pos : Nat) : Decidable (s.Fits pos) := inferInstanceAs (Decidable (_ ∧ _))

instance (s : St) (content : List UInt8) : Decidable (s.FileFits content) :=
  inferInstanceAs (Decidable (_ → _))

instance (s : St) : (o : Opt w) → Decidable (s.Good o)
  | .maxlen (some _) _ => inferInstanceAs (Decidable (_ → _))
  | .align (some _) => inferInstanceAs (Decidable (_ ∧ (_ → _)))
  | .absolute (some _) => inferInstanceAs (Decidable (_ → _))
  | .relative (some n) => inferInstanceAs (Decidable
    (if n.toInt < 0 then s.headerSize ≤ s.curLen + n.toInt else s.Fits (s.curLen + n.toNat)))
  | .file (some _) => inferInstanceAs (Decidable ((_ → _) ∧ _))
  | .append (some content) => inferInstanceAs (Decidable (s.FileFits content))
  | .fsmark (some content) => inferInstanceAs (Decidable (s.FileFits content))
  | .version2 | .output _ | .maxlen none _ | .align none | .absolute none | .relative none
  | .file none | .append none | .fsmark none | .magic _ | .other => .isTrue trivial

instance (heap : Mem) (s : St) : Decidable (s.GoodFinish heap) :=
  inferInstanceAs (Decidable (_ → _ ∧ _ ∧
    if s.trxVersion = 2 then s.i = 4 ∧ s.offset3 ≤ s.curLen + pad4096 s.curLen
    else ∀ a, offsetsOffset s.i ≤ a → a < offsetsOffset 3 → heap a = 0))

/-- After an error there is nothing to say. -/
private theorem forall_error (e : Stop) (P : St → Prop) : ∀ s', Except.error e = .ok s' → P s' := by
  intro s' h
  cases h

/-- After a result there is its state. -/
private theorem forall_ok (s : St) (P : St → Prop) :
    P s ↔ ∀ s', (Except.ok s : Except Stop St) = .ok s' → P s' := by
  constructor
  · intro h s' hs'
    rwa [← Except.ok.inj hs']
  · intro h
    exact h s rfl

instance decidableGoodRun (heap : Mem) : (s : St) → (opts : List (Opt w)) → Decidable (GoodRun heap s opts)
  | s, [] => inferInstanceAs (Decidable (s.GoodFinish heap))
  | s, o :: opts =>
    have : Decidable (∀ s', s.step o = .ok s' → GoodRun heap s' opts) :=
      match s.step o with
      | .error e => .isTrue (forall_error e _)
      | .ok s' =>
        have := decidableGoodRun heap s' opts
        decidable_of_iff (GoodRun heap s' opts) (forall_ok s' fun s' => GoodRun heap s' opts)
    inferInstanceAs (Decidable (_ ∧ _))

/-! ### The invariant -/

/-- What holds between the options. Bytes behind the position do not matter. -/
structure Inv (w : Nat) (heap : Mem) (g : Layout) (s : St) : Prop where
  version : s.trxVersion = 1 ∨ s.trxVersion = 2
  header_le : s.headerSize ≤ s.curLen
  le_maxlen : s.curLen ≤ s.maxlen
  curLen_lt : s.curLen < 2 ^ 32
  page_le : 0x1000 ≤ s.maxlen
  page_dvd : 0x1000 ∣ s.maxlen
  maxlen_lt : s.maxlen < 2 ^ w
  count : s.i = g.pieces.length
  count_le : s.i ≤ limit s.trxVersion
  placed : ∀ j p, g.pieces[j]? = some p → wordAt s.buf (offsetsOffset j) = p.pos
  binheader : ∀ p, g.pieces[3]? = some p → sizeofHeader ≤ p.pos
  unchanged : ∀ p ∈ g.pieces, p.moved = false → p.content ≠ [] → s.headerSize ≤ p.pos ∧
    p.pos + p.content.length ≤ s.curLen ∧ bytesAt s.buf p.pos p.content.length = p.content
  unused : ∀ a, offsetsOffset s.i ≤ a → a < offsetsOffset 3 → s.buf a = heap a
  fsmark : s.fsmark = g.mark.getD 0
  mark : ∀ m, g.mark = some m → offsetsOffset 3 ≤ m

/-- There are three or four partitions. -/
private theorem limit_le (v : Nat) : 3 ≤ limit v ∧ limit v ≤ 4 := by
  rw [limit]
  split <;> omega

/-- A word is four bytes. -/
private theorem wordAt_congr {m m' : Mem} {pos : Nat} (h : ∀ k < 4, m (pos + k) = m' (pos + k)) :
    wordAt m pos = wordAt m' pos :=
  loadBE_congr fun k hk => h (4 - 1 - k) (by omega)

/-- A word that was written. -/
private theorem wordAt_writeBytes (m : Mem) (pos : Nat) {v : Nat} (h : v < 2 ^ 32) :
    wordAt (writeBytes m pos (leBytes 4 v)) pos = v :=
  loadLE_of_bytesAt (bytesAt_writeBytes_eq m (length_leBytes 4 v)) h

variable {heap : Mem} {g : Layout} {s : St}

/-- The header has 28 or 32 bytes. -/
theorem St.headerSize_bounds (s : St) : 28 ≤ s.headerSize ∧ s.headerSize ≤ 32 := by
  have hlimit := limit_le s.trxVersion
  rw [headerSize, offsetsOffset]
  omega

/-- Writes from the position on keep the invariant, and so does a new magic. -/
theorem Inv.forward (hinv : Inv w heap g s) {buf : Mem} {pos : Nat} (opened : Bool)
    (hbuf : ∀ a, 16 ≤ a → a < s.curLen → buf a = s.buf a) (hle : s.curLen ≤ pos)
    (hfits : s.Fits pos) : Inv w heap g { s with buf, curLen := pos, opened } := by
  obtain ⟨h28, h32⟩ := s.headerSize_bounds
  have hheader := hinv.header_le
  have hcount := hinv.count_le
  have hlimit : s.headerSize = 16 + 4 * limit s.trxVersion := rfl
  -- moving on writes behind the header only; what was placed and what is still 0 is untouched
  refine { hinv with
    header_le := Nat.le_trans hinv.header_le hle
    le_maxlen := hfits.1
    curLen_lt := hfits.2
    placed := ?_
    unchanged := ?_
    unused := ?_ }
  · intro j p hp
    rw [← hinv.placed j p hp]
    have hj := (List.getElem?_eq_some_iff.mp hp).1
    rw [← hinv.count] at hj
    exact wordAt_congr fun k hk => hbuf _ (by rw [offsetsOffset]; omega)
      (by rw [offsetsOffset]; omega)
  · intro p hp hmoved hne
    obtain ⟨hpos, hend, hbytes⟩ := hinv.unchanged p hp hmoved hne
    refine ⟨hpos, Nat.le_trans hend hle, ?_⟩
    dsimp only
    rw [bytesAt_congr fun k hk => hbuf (p.pos + k) (by omega) (by omega), hbytes]
  · intro a ha ha'
    rw [← hinv.unused a ha ha']
    rw [offsetsOffset] at ha ha'
    exact hbuf a (by omega) (by omega)

/-! ### The options -/

/-- Bytes with room are written. -/
theorem St.write_eq {pos : Nat} {l : List UInt8} (h : pos + l.length ≤ s.maxlen) :
    s.write pos l = .ok { s with buf := writeBytes s.buf pos l } := if_pos (.inr h)

/-- Zeros with room are written. -/
theorem St.zeros_eq {n : Nat} (h : s.Fits (s.curLen + n)) :
    s.zeros n = .ok
      { s with buf := writeBytes s.buf s.curLen (List.replicate n 0), curLen := s.curLen + n } := by
  rw [zeros, write_eq (by rw [List.length_replicate]; exact h.1)]
  change Except.ok _ = _
  rw [Nat.mod_eq_of_lt h.2]

/-- Zeros keep the invariant. -/
theorem Inv.zeros (hinv : Inv w heap g s) {n : Nat} (h : s.Fits (s.curLen + n)) :
    ∃ s', s.zeros n = .ok s' ∧ Inv w heap g s' ∧ s'.curLen = s.curLen + n :=
  ⟨_, St.zeros_eq h, hinv.forward s.opened (fun _ _ ha => writeBytes_of_lt _ ha)
    (Nat.le_add_right _ _) h, rfl⟩

/-- A file with its padding. -/
def padded (content : List UInt8) : List UInt8 :=
  content ++ List.replicate (pad4 content.length) 0

/-- A padded file. -/
private theorem length_padded (content : List UInt8) :
    (padded content).length = content.length + pad4 content.length := by
  rw [padded, List.length_append, List.length_replicate]

/-- The state behind a file. -/
def St.behind (s : St) (content : List UInt8) : St :=
  { s with
    buf := writeBytes s.buf s.curLen (padded content)
    curLen := s.curLen + (padded content).length
    opened := true }

/-- A file is refused, or it is read without leaving the buffer. -/
theorem St.readFile_eq (content : Option (List UInt8)) (hle : s.curLen ≤ s.maxlen)
    (hlt : s.maxlen < 2 ^ w) (hgood : ∀ l, content = some l → s.FileFits l) :
    s.readFile w content = .error .exit ∨
      ∃ l, content = some l ∧ s.curLen + l.length < s.maxlen ∧
        s.Fits (s.curLen + (padded l).length) ∧ s.readFile w content = .ok (s.behind l) := by
  cases content with
  | none => exact .inl rfl
  | some l =>
    -- the space that is left does not wrap
    have hspace : (s.maxlen + 2 ^ w - s.curLen) % 2 ^ w = s.maxlen - s.curLen := by
      rw [show s.maxlen + 2 ^ w - s.curLen = s.maxlen - s.curLen + 2 ^ w by omega,
        Nat.add_mod_right, Nat.mod_eq_of_lt (by omega)]
    rw [readFile, hspace]
    -- a file that fills the space is refused; a shorter one is padded to words
    by_cases hlarge : s.maxlen - s.curLen ≤ l.length
    · exact .inl (if_pos hlarge)
    · have hfits := hgood l rfl (by omega)
      rw [← length_padded] at hfits
      refine .inr ⟨l, rfl, by omega, hfits, ?_⟩
      have hmax := hfits.1
      rw [length_padded] at hmax
      rw [if_neg hlarge, write_eq (by omega)]
      change (St.write _ _ _ >>= _) = _
      rw [write_eq (by rw [List.length_replicate]; dsimp only; omega)]
      change Except.ok _ = _
      rw [behind, ← length_padded, Nat.mod_eq_of_lt hfits.2, padded, ← writeBytes_append]

/-- A file without an offset. -/
theorem Inv.behind (hinv : Inv w heap g s) {content : List UInt8}
    (hfits : s.Fits (s.curLen + (padded content).length)) :
    Inv w heap g (s.behind content) :=
  hinv.forward true (fun _ _ ha => writeBytes_of_lt _ ha) (Nat.le_add_right _ _) hfits

/-- The state in which the position is the next offset. -/
def St.stored (s : St) : St :=
  { s with buf := writeBytes s.buf (offsetsOffset s.i) (leBytes 4 s.curLen), i := s.i + 1 }

/-- The offset of a partition is stored. -/
theorem Inv.storeOffset (hinv : Inv w heap g s) : s.storeOffset = .ok s.stored := by
  have hcount := hinv.count_le
  have hlimit := limit_le s.trxVersion
  have hpage := hinv.page_le
  rw [St.storeOffset, St.write_eq (by rw [length_leBytes, offsetsOffset]; omega)]
  rfl

/-- A file with an offset. -/
theorem Inv.place (hinv : Inv w heap g s) {content : List UInt8} (hi : s.i < limit s.trxVersion)
    (hfits : s.Fits (s.curLen + (padded content).length)) :
    Inv w heap { g with pieces := g.pieces ++ [⟨s.curLen, content, false⟩] }
      (s.stored.behind content) := by
  have hheader := hinv.header_le
  have hsize : s.headerSize = 16 + 4 * limit s.trxVersion := rfl
  have hslot : offsetsOffset s.i + 4 ≤ s.headerSize := by
    rw [offsetsOffset]
    omega
  -- in front of the position only the new offset is written
  have hbuf : ∀ a, a < s.curLen → (s.stored.behind content).buf a = s.stored.buf a :=
    fun a ha => writeBytes_of_lt _ ha
  have hother : ∀ a, a < s.curLen → a < offsetsOffset s.i ∨ offsetsOffset s.i + 4 ≤ a →
      (s.stored.behind content).buf a = s.buf a := by
    intro a ha hout
    rw [hbuf a ha]
    rcases hout with hout | hout
    · exact writeBytes_of_lt _ hout
    · exact writeBytes_of_le _ (by rw [length_leBytes]; exact hout)
  refine { hinv with
    header_le := Nat.le_trans hinv.header_le (Nat.le_add_right _ _)
    le_maxlen := hfits.1
    curLen_lt := hfits.2
    count := ?_
    count_le := hi
    placed := ?_
    binheader := ?_
    unchanged := ?_
    unused := ?_ }
  · rw [List.length_append, ← hinv.count]
    rfl
  -- the offsets: the old ones are not overwritten, the new one is the position
  · intro j p hp
    by_cases hj : j < g.pieces.length
    · rw [List.getElem?_append_left hj] at hp
      rw [← hinv.placed j p hp]
      rw [← hinv.count] at hj
      rw [offsetsOffset] at hslot ⊢
      exact wordAt_congr fun k hk => hother _ (by omega) (.inl (by rw [offsetsOffset]; omega))
    · rw [List.getElem?_append_right (by omega), List.getElem?_singleton] at hp
      split at hp
      · obtain rfl := Option.some.inj hp
        rw [show j = s.i by rw [hinv.count]; omega,
          wordAt_congr fun k hk => hbuf (offsetsOffset s.i + k) (by omega)]
        exact wordAt_writeBytes s.buf (offsetsOffset s.i) hinv.curLen_lt
      · cases hp
  · intro p hp
    by_cases hj : 3 < g.pieces.length
    · rw [List.getElem?_append_left hj] at hp
      exact hinv.binheader p hp
    · rw [List.getElem?_append_right (by omega), List.getElem?_singleton] at hp
      split at hp
      · obtain rfl := Option.some.inj hp
        -- a fourth file is placed behind the header of version 2
        have hcount := hinv.count
        change 32 ≤ s.curLen
        omega
      · cases hp
  -- the bytes of the old files are in front of the position, the new file's are written there
  · intro p hp hmoved hne
    rcases List.mem_append.mp hp with hp | hp
    · obtain ⟨hpos, hend, hbytes⟩ := hinv.unchanged p hp hmoved hne
      refine ⟨hpos, Nat.le_trans hend (Nat.le_add_right _ _), ?_⟩
      rw [bytesAt_congr fun k hk => hother (p.pos + k) (by omega) (.inr (by omega)), hbytes]
    · obtain rfl := List.mem_singleton.mp hp
      have hlength := length_padded content
      refine ⟨hinv.header_le, ?_, ?_⟩
      · change s.curLen + content.length ≤ s.curLen + (padded content).length
        omega
      · change bytesAt (writeBytes s.stored.buf s.curLen (padded content)) s.curLen
          content.length = content
        rw [bytesAt_take (bytesAt_writeBytes_self s.stored.buf s.curLen (padded content))
          (by omega), padded, List.take_left]
  · intro a ha ha'
    have hbound := s.headerSize_bounds
    change 16 + 4 * (s.i + 1) ≤ a at ha
    rw [offsetsOffset] at ha'
    rw [hother a (by omega) (.inr (by rw [offsetsOffset]; omega))]
    exact hinv.unused a (by rw [offsetsOffset]; omega) (by rw [offsetsOffset]; omega)

/-- The position moves back, but not into the header. -/
theorem Inv.back (hinv : Inv w heap g s) {pos : Nat} (hheader : s.headerSize ≤ pos)
    (hle : pos ≤ s.curLen) :
    Inv w heap { g with pieces := g.pieces.map (.back pos) } { s with curLen := pos } := by
  -- `-x` and `-f` may go back: a file that reached behind the new position counts as moved
  refine { hinv with
    header_le := hheader
    le_maxlen := Nat.le_trans hle hinv.le_maxlen
    curLen_lt := Nat.lt_of_le_of_lt hle hinv.curLen_lt
    count := by rw [List.length_map]; exact hinv.count
    placed := ?_
    binheader := ?_
    unchanged := ?_ }
  · intro j p hp
    rw [List.getElem?_map, Option.map_eq_some_iff] at hp
    obtain ⟨q, hq, rfl⟩ := hp
    exact hinv.placed j q hq
  · intro p hp
    rw [List.getElem?_map, Option.map_eq_some_iff] at hp
    obtain ⟨q, hq, rfl⟩ := hp
    exact hinv.binheader q hq
  · intro p hp hmoved hne
    obtain ⟨q, hq, rfl⟩ := List.mem_map.mp hp
    rw [Piece.back, Bool.or_eq_false_iff, decide_eq_false_iff_not, Nat.not_lt] at hmoved
    obtain ⟨hpos, -, hbytes⟩ := hinv.unchanged q hq hmoved.1 hne
    exact ⟨hpos, hmoved.2, hbytes⟩

/-- `-2` finds nothing but the header: a file in front of the position would be empty. -/
theorem Inv.version2 (hinv : Inv w heap g s) (hpos : s.curLen = sizeofHeader - 4) :
    Inv w heap g { s with trxVersion := 2, curLen := s.curLen + 4 } := by
  have hpage := hinv.page_le
  have hlimit := limit_le s.trxVersion
  have hcount := hinv.count_le
  have hheader := s.headerSize_bounds
  have h28 : s.curLen = 28 := hpos
  refine { hinv with
    version := .inr rfl
    header_le := ?_
    le_maxlen := by dsimp only; omega
    curLen_lt := by dsimp only; omega
    count_le := by change s.i ≤ 4; omega
    unchanged := ?_ }
  · change 32 ≤ s.curLen + 4
    omega
  -- no file has been placed yet: at the end of the header there is room for an empty one only
  · intro p hp hmoved hne
    obtain ⟨hpos, hend, -⟩ := hinv.unchanged p hp hmoved hne
    have hlength := List.length_pos_iff.mpr hne
    omega

/-- A new buffer keeps what is in front of the position. -/
theorem Inv.realloc (hinv : Inv w heap g s) {maxlen : Nat} (memory : Mem)
    (hpage : 0x1000 ≤ maxlen) (hdvd : 0x1000 ∣ maxlen) (hlt : maxlen < 2 ^ w)
    (hle : s.curLen ≤ maxlen) :
    Inv w heap g { s with buf := reallocated s.buf s.maxlen maxlen memory, maxlen } := by
  have hfits : { s with maxlen }.Fits s.curLen := ⟨hle, hinv.curLen_lt⟩
  have hmax := hinv.le_maxlen
  have hinv' : Inv w heap g { s with maxlen } :=
    { hinv with le_maxlen := hle, page_le := hpage, page_dvd := hdvd, maxlen_lt := hlt }
  exact hinv'.forward s.opened (fun a _ ha => if_pos ⟨by dsimp only at ha; omega, by
    dsimp only at ha; omega⟩) (Nat.le_refl _) hfits

/-- A number of at least 32 bits is rounded up to a multiple of the page. -/
private theorem roundMaxlen_dvd (hw : 32 ≤ w) (n : BitVec w) : 0x1000 ∣ (roundMaxlen n).toNat := by
  -- the addition may wrap, which a divisor of the word size survives
  have hpow : (0x1000 : Nat) ∣ 2 ^ w := Nat.pow_dvd_pow 2 (show 12 ≤ w by omega)
  have hlt : 2 ^ 12 < 2 ^ w := Nat.pow_lt_pow_right (by decide) (by omega)
  have hmask : (n &&& 0xfff).toNat = n.toNat % 0x1000 := by
    rw [BitVec.toNat_and]
    change n.toNat &&& (0xfff % 2 ^ w) = _
    rw [Nat.mod_eq_of_lt (by omega)]
    exact Nat.and_two_pow_sub_one_eq_mod n.toNat 12
  rw [roundMaxlen]
  split
  · have hsub : (0x1000 - (n &&& 0xfff)).toNat = 0x1000 - n.toNat % 0x1000 := by
      have hpage : (0x1000 : BitVec w).toNat = 0x1000 := Nat.mod_eq_of_lt hlt
      rw [BitVec.toNat_sub_of_le, hmask, hpage]
      rw [BitVec.le_def, hmask, hpage]
      omega
    rw [BitVec.toNat_add, hsub, Nat.dvd_mod_iff hpow]
    omega
  · rename_i hzero
    rw [not_not] at hzero
    rw [hzero] at hmask
    have h0 : (0 : BitVec w).toNat = 0 := Nat.zero_mod _
    rw [h0] at hmask
    exact Nat.dvd_of_mod_eq_zero hmask.symm

/-- Where the mask gives the remainder, `-a` moves to a multiple. -/
theorem align_dvd {s' : St} (hinv : Inv w heap g s) {n : BitVec w}
    (hgood : s.Good (.align (some n))) (hstep : s.step (.align (some n)) = .ok s') :
    n.toNat ∣ s'.curLen := by
  obtain ⟨hmod, hfits⟩ := hgood
  rw [St.step] at hstep
  split at hstep
  · rename_i hc
    have hfits := hfits hc
    rw [St.zeros_eq hfits] at hstep
    obtain rfl := Except.ok.inj hstep
    dsimp only
    generalize hcmask : BitVec.ofNat w s.curLen &&& (n - 1) = c at hmod hfits ⊢
    have hn : 0 < n.toNat := by
      -- with `n = 0` the mask has all bits, and the rest of the address space would be written
      by_contra hn
      have hzero : n.toNat = 0 := by omega
      have hheader := Nat.le_trans s.headerSize_bounds.1 hinv.header_le
      have hmax := hfits.1
      have hlt := hinv.maxlen_lt
      rw [hzero, Nat.mod_zero] at hmod
      rw [BitVec.toNat_sub, hmod, hzero, Nat.add_zero, Nat.mod_eq_of_lt (by omega)] at hmax
      omega
    have hlt := Nat.mod_lt s.curLen hn
    rw [BitVec.toNat_sub_of_le (BitVec.le_def.mpr (by omega)), hmod]
    -- the zeros fill up to the next multiple
    have hdiv := Nat.div_add_mod s.curLen n.toNat
    refine ⟨s.curLen / n.toNat + 1, ?_⟩
    rw [Nat.mul_add, Nat.mul_one]
    omega
  · rename_i hc
    obtain rfl := Except.ok.inj hstep
    rw [not_not] at hc
    rw [hc] at hmod
    exact Nat.dvd_of_mod_eq_zero (hmod.symm.trans (Nat.zero_mod _))

/-- The option ends the program, or the invariant holds behind it. -/
def KeepsInv (heap : Mem) (g : Layout) (s : St) (o : Opt w) : Prop :=
  s.step o = .error .exit ∨ ∃ s', s.step o = .ok s' ∧ Inv w heap (g.step s.curLen o) s'

/-- `-m` makes the buffer larger, or as large as what was written. -/
private theorem step_maxlen_inv (hw : 32 ≤ w) (hinv : Inv w heap g s) {n : Option (BitVec w)}
    {memory : Option Mem} (hgood : s.Good (.maxlen n memory)) :
    KeepsInv heap g s (.maxlen n memory) := by
  cases n with
  | none => exact .inl rfl
  | some n =>
    unfold KeepsInv St.step
    dsimp only
    split
    · exact .inl rfl
    -- the new buffer is as long as the rounded length
    · rename_i hpage
      cases memory with
      | none => exact .inl rfl
      | some memory =>
        exact .inr ⟨_, rfl, hinv.realloc memory (by omega) (roundMaxlen_dvd hw n)
          (roundMaxlen n).isLt (hgood (by omega))⟩

/-- `-a` and `-b` move forward over zeros. -/
private theorem step_align_inv (hinv : Inv w heap g s) {n : Option (BitVec w)}
    (hgood : s.Good (.align n)) : KeepsInv heap g s (.align n) := by
  cases n with
  | none => exact .inl rfl
  | some n =>
    rw [KeepsInv, St.step]
    split
    · rename_i hc
      obtain ⟨s', hs', hinv', -⟩ := hinv.zeros (hgood.2 hc)
      exact .inr ⟨s', hs', hinv'⟩
    · exact .inr ⟨s, rfl, hinv⟩

/-- An absolute offset keeps the invariant. -/
private theorem step_absolute_inv (hinv : Inv w heap g s) {n : Option (BitVec w)}
    (hgood : s.Good (.absolute n)) : KeepsInv heap g s (.absolute n) := by
  cases n with
  | none => exact .inl rfl
  | some n =>
    rw [KeepsInv, St.step]
    split
    -- the offset is behind already
    · exact .inr ⟨s, rfl, hinv⟩
    · rename_i hle
      rw [Nat.not_lt] at hle
      have hfits := hgood hle
      rw [← Nat.add_sub_cancel' hle] at hfits
      obtain ⟨s', hs', hinv', -⟩ := hinv.zeros hfits
      exact .inr ⟨s', hs', hinv'⟩

/-- `-x` moves in either direction. -/
private theorem step_relative_inv (hinv : Inv w heap g s) {n : Option (BitVec w)}
    (hgood : s.Good (.relative n)) : KeepsInv heap g s (.relative n) := by
  have hheader := Nat.le_trans s.headerSize_bounds.1 hinv.header_le
  cases n with
  | none => exact .inl rfl
  | some n =>
    simp only [KeepsInv, St.step, Layout.step]
    rw [St.Good] at hgood
    split at hgood
    -- a negative offset moves back over what is written
    · rename_i hneg
      rw [if_pos hneg, if_pos hneg, if_neg (by omega)]
      exact .inr ⟨_, rfl, hinv.back (by omega) (by omega)⟩
    -- any other one fills up with zeros
    · rename_i hneg
      rw [if_neg hneg, if_neg hneg]
      obtain ⟨s', hs', hinv', -⟩ := hinv.zeros hgood
      exact .inr ⟨s', hs', hinv'⟩

/-- `-f` stores the position in the header, and then the file. -/
private theorem step_file_inv (hinv : Inv w heap g s) {content : Option (List UInt8)}
    (hgood : s.Good (.file content : Opt w)) : KeepsInv heap g s (.file content : Opt w) := by
  have hstep : s.step (.file content : Opt w) = s.stored.readFile w content := by
    change (s.storeOffset >>= fun s => s.readFile w content) = _
    rw [hinv.storeOffset]
    rfl
  rw [KeepsInv, hstep]
  have hread : s.stored.readFile w content = _ ∨ _ :=
    St.readFile_eq (s := s.stored) content hinv.le_maxlen hinv.maxlen_lt
      (by rintro l rfl; exact hgood.2)
  rcases hread with hread | ⟨l, rfl, hroom, hfits, hread⟩
  · exact .inl hread
  · exact .inr ⟨_, hread, hinv.place (hgood.1 hroom) hfits⟩

/-- `-A` and `-F` put the file behind what was written; `-F` marks where the CRC ends. -/
private theorem step_append_inv (hinv : Inv w heap g s) {content : Option (List UInt8)}
    (hgood : s.Good (.append content : Opt w)) : KeepsInv heap g s (.append content : Opt w) := by
  rcases St.readFile_eq content hinv.le_maxlen hinv.maxlen_lt (by rintro l rfl; exact hgood) with
    hread | ⟨l, rfl, -, hfits, hread⟩
  · exact .inl hread
  · exact .inr ⟨_, hread, hinv.behind hfits⟩

/-- A file with its mark keeps the invariant. -/
private theorem step_fsmark_inv (hinv : Inv w heap g s) {content : Option (List UInt8)}
    (hgood : s.Good (.fsmark content : Opt w)) : KeepsInv heap g s (.fsmark content : Opt w) := by
  have hinv' : Inv w heap { g with mark := some s.curLen } { s with fsmark := s.curLen } :=
    { hinv with
      fsmark := rfl
      mark := by
        intro m hm
        obtain rfl := Option.some.inj hm
        exact Nat.le_trans s.headerSize_bounds.1 hinv.header_le }
  rcases St.readFile_eq (s := { s with fsmark := s.curLen }) content hinv.le_maxlen hinv.maxlen_lt
    (by rintro l rfl; exact hgood) with hread | ⟨l, rfl, -, hfits, hread⟩
  · exact .inl hread
  · exact .inr ⟨_, hread, hinv'.behind hfits⟩

/-- `-M` writes into the header. -/
private theorem step_magic_inv (hinv : Inv w heap g s) (n : Option (BitVec w)) :
    KeepsInv heap g s (.magic n) := by
  have hheader := Nat.le_trans s.headerSize_bounds.1 hinv.header_le
  have hmax := hinv.le_maxlen
  cases n with
  | none => exact .inl rfl
  | some n =>
    rw [KeepsInv, St.step, St.write_eq (by rw [length_leBytes]; omega)]
    exact .inr ⟨_, rfl, hinv.forward s.opened
      (fun a ha _ => writeBytes_of_le _ (by rw [length_leBytes]; omega)) (Nat.le_refl _)
      ⟨hmax, hinv.curLen_lt⟩⟩

/-- A good option ends the program, or keeps the invariant. -/
theorem step_inv (hw : 32 ≤ w) (hinv : Inv w heap g s) {o : Opt w} (hgood : s.Good o) :
    KeepsInv heap g s o := by
  -- one lemma for each option that writes
  cases o with
  | version2 =>
    rw [KeepsInv, St.step]
    split
    · exact .inr ⟨s, rfl, hinv⟩
    · rename_i hpos
      exact .inr ⟨_, rfl, hinv.version2 (not_not.mp hpos)⟩
  | output opened =>
    cases opened with
    | false => exact .inl rfl
    | true => exact .inr ⟨s, rfl, hinv⟩
  | maxlen n memory => exact step_maxlen_inv hw hinv hgood
  | align n => exact step_align_inv hinv hgood
  | absolute n => exact step_absolute_inv hinv hgood
  | relative n => exact step_relative_inv hinv hgood
  | file content => exact step_file_inv hinv hgood
  | append content => exact step_append_inv hinv hgood
  | fsmark content => exact step_fsmark_inv hinv hgood
  | magic n => exact step_magic_inv hinv n
  | other => exact .inl rfl

/-- The first options of a good run end the program, or they leave a good run. -/
theorem run_inv (hw : 32 ≤ w) {pre post : List (Opt w)} (hinv : Inv w heap g s)
    (hgood : GoodRun heap s (pre ++ post)) :
    s.run pre = .error .exit ∨
      ∃ s', s.run pre = .ok s' ∧ Inv w heap (layout g s pre) s' ∧ GoodRun heap s' post := by
  induction pre generalizing g s with
  | nil => exact .inr ⟨s, rfl, hinv, hgood⟩
  | cons o pre ih =>
    obtain ⟨hgood, hrest⟩ := hgood
    rw [St.run, layout]
    rcases step_inv hw hinv hgood with hstep | ⟨s', hstep, hinv'⟩
    · rw [hstep]
      exact .inl rfl
    · rw [hstep]
      exact ih hinv' (hrest s' hstep)

/-- Options that follow one another. -/
theorem run_append (s : St) (pre post : List (Opt w)) :
    s.run (pre ++ post) = s.run pre >>= fun s' => s'.run post := by
  induction pre generalizing s with
  | nil => rfl
  | cons o pre ih =>
    rw [List.cons_append, St.run, St.run]
    cases s.step o with
    | error e => rfl
    | ok s' => exact ih s'

/-! ### The image -/

/-- The header behind the checksum. -/
def sealed (buf : Mem) (crc len : Nat) : Mem :=
  writeBytes (writeBytes buf crc32Offset (leBytes 4 crc)) lenOffset (leBytes 4 len)

/-- The eight bytes are set. -/
def flagged (buf : Mem) (pos : Nat) : Mem := writeBytes buf (pos + 22) (List.replicate 8 0xff)

/-- `crc32buf` of the first `len` bytes -/
def crcOf (buf : Mem) (len : Nat) : Nat :=
  (Crc.accumulate 0xffffffff (bytesAt buf flagVersionOffset (len - flagVersionOffset))).toNat

/-- Version 1 writes the header and nothing else. -/
theorem seal_v1 {written : Bool} (hversion : s.trxVersion = 1) (hpage : 0x1000 ≤ s.maxlen)
    (hle : s.curLen ≤ s.maxlen) (hlen : flagVersionOffset ≤ s.len) (hlen' : s.len ≤ s.maxlen) :
    s.seal written =
      if s.curLen = 0 ∨ ¬written then .error .exit
      else .ok (bytesAt (sealed s.buf (crcOf s.buf s.len) s.len) 0 s.curLen) := by
  have hcrc : s.crc32 s.len = .ok _ := if_pos ⟨hlen, hlen'⟩
  have h1 : ¬s.trxVersion = 2 := by omega
  simp only [St.seal, h1, false_and, ↓reduceIte, pure_bind, hcrc, ok_bind]
  rw [St.write_eq (by rw [length_leBytes, crc32Offset]; omega), ok_bind,
    St.write_eq (by rw [length_leBytes, lenOffset]; dsimp only; omega), ok_bind]
  rw [if_neg h1, if_neg (Nat.not_lt.mpr hle)]
  split
  · rfl
  · rfl

/-- The header changes its first twelve bytes only. -/
private theorem sealed_of_lt {buf : Mem} {crc len a : Nat} (h : 12 ≤ a) :
    sealed buf crc len a = buf a := by
  rw [sealed, writeBytes_of_le _ (by rw [length_leBytes, lenOffset]; omega),
    writeBytes_of_le _ (by rw [length_leBytes, crc32Offset]; omega)]

/-- The length in the header. -/
private theorem wordAt_sealed_len (buf : Mem) (crc : Nat) {len : Nat} (h : len < 2 ^ 32) :
    wordAt (sealed buf crc len) lenOffset = len := wordAt_writeBytes _ lenOffset h

/-- The checksum in the header. -/
private theorem wordAt_sealed_crc32 (buf : Mem) (len : Nat) {crc : Nat} (h : crc < 2 ^ 32) :
    wordAt (sealed buf crc len) crc32Offset = crc := by
  have hkept : ∀ k < 4, sealed buf crc len (crc32Offset + k) =
      writeBytes buf crc32Offset (leBytes 4 crc) (crc32Offset + k) :=
    fun k _ => writeBytes_of_le _ (by rw [length_leBytes, lenOffset, crc32Offset]; omega)
  rw [wordAt_congr hkept, wordAt_writeBytes buf crc32Offset h]

/-- Version 2 does the same, as the bin-header is behind the header. -/
private theorem seal_v2 {written : Bool} (hversion : s.trxVersion = 2) (hpage : 0x1000 ≤ s.maxlen)
    (hle : s.curLen ≤ s.maxlen) (hlt : s.curLen < 2 ^ 32) (hlen : flagVersionOffset ≤ s.len)
    (hlen' : s.len ≤ s.maxlen) (hpos : sizeofHeader ≤ s.offset3) (hpos' : s.offset3 ≤ s.curLen) :
    s.seal written =
      if s.curLen < s.offset3 + sizeofBinheader ∨ ¬written then .error .exit
      else .ok (bytesAt (writeBytes
        (sealed (flagged s.buf s.offset3) (crcOf (flagged s.buf s.offset3) s.len) s.len)
        s.offset3 (bytesAt s.buf s.offset3 sizeofBinheader)) 0 s.curLen) := by
  -- `cur_len - offset` is computed in 32 bits and does not wrap
  have hspace : (s.curLen + 2 ^ 32 - s.offset3) % 2 ^ 32 = s.curLen - s.offset3 := by
    rw [show s.curLen + 2 ^ 32 - s.offset3 = s.curLen - s.offset3 + 2 ^ 32 by omega,
      Nat.add_mod_right, Nat.mod_eq_of_lt (by omega)]
  rw [sizeofHeader] at hpos
  by_cases hsmall : s.curLen < s.offset3 + sizeofBinheader
  · rw [if_pos (.inl hsmall), St.seal, if_pos ⟨hversion, by omega⟩]
    rfl
  have hbinheader : s.binheader s.offset3 = .ok _ := if_pos (by omega)
  simp only [St.seal, hspace, hversion, true_and, ↓reduceIte, hbinheader, ok_bind]
  rw [sizeofBinheader] at hsmall ⊢
  rw [if_neg (by omega), St.write_eq (by rw [List.length_replicate]; omega), ok_bind]
  have hcrc : St.crc32 { s with buf := flagged s.buf s.offset3 } s.len = .ok _ :=
    if_pos ⟨hlen, hlen'⟩
  change (St.crc32 { s with buf := flagged s.buf s.offset3 } s.len >>= _) = _
  rw [hcrc, ok_bind, St.write_eq (by rw [length_leBytes, crc32Offset]; dsimp only; omega),
    ok_bind, St.write_eq (by rw [length_leBytes, lenOffset]; dsimp only; omega), ok_bind,
    if_pos hversion]
  -- the last offset is read again, behind the writes
  have hoffset (crc len : Nat) :
      St.offset3 { s with buf := sealed (flagged s.buf s.offset3) crc len } = s.offset3 := by
    apply wordAt_congr
    intro k hk
    dsimp only
    rw [sealed_of_lt (by rw [offsetsOffset]; omega), flagged,
      writeBytes_of_lt _ (by rw [offsetsOffset]; omega)]
  change (St.write _ (St.offset3 { s with buf := sealed (flagged s.buf s.offset3) _ _ }) _ >>= _)
    = _
  rw [hoffset, St.write_eq (by rw [length_bytesAt]; dsimp only; omega), ok_bind,
    if_neg (Nat.not_lt.mpr hle)]
  dsimp only
  -- `fwrite` may still fail
  by_cases hwritten : written = true
  · rw [if_neg (by simp [hwritten]; omega), if_neg (by simp [hwritten]; omega)]
    rfl
  · rw [if_pos (.inr hwritten), if_pos (.inr hwritten)]
    rfl

/-- The bytes of the image. -/
private theorem image_bytesAt (m : Mem) {n a : Nat} (h : a < n) : image (bytesAt m 0 n) a = m a
    := by
  rw [image, getD_bytesAt m 0 h, Nat.zero_add]

/-- The length is up to the mark, if there is one. -/
theorem Inv.len_eq (hinv : Inv w heap g s) : s.len = g.mark.getD s.curLen := by
  rw [St.len, hinv.fsmark]
  cases hmark : g.mark with
  | none => rfl
  | some m =>
    have hm := hinv.mark m hmark
    rw [offsetsOffset] at hm
    exact if_pos (show m ≠ 0 by omega)

/-- An image that differs from the buffer in length and checksum only. -/
theorem Inv.consistent (hinv : Inv w heap g s) {m : Mem} (hm : ∀ a, 12 ≤ a → m a = s.buf a)
    (hlen : wordAt m lenOffset = s.len) (hle : s.len ≤ s.curLen)
    (hcrc : wordAt m crc32Offset =
      crcOf (if s.trxVersion = 2 then flagged s.buf s.offset3 else s.buf) s.len)
    (hunused : if s.trxVersion = 2 then s.i = 4
      else ∀ a, offsetsOffset s.i ≤ a → a < offsetsOffset 3 → heap a = 0) :
    Consistent s.trxVersion g (bytesAt m 0 s.curLen) := by
  have hsize : s.headerSize = 16 + 4 * limit s.trxVersion := rfl
  have hbound := s.headerSize_bounds
  have hheader := hinv.header_le
  have hcount := hinv.count_le
  -- the image behind the first three words is the buffer
  have himage : ∀ a, 12 ≤ a → a < s.curLen → image (bytesAt m 0 s.curLen) a = s.buf a := by
    intro a ha ha'
    rw [image_bytesAt m ha', hm a ha]
  have hword : ∀ j < limit s.trxVersion,
      wordAt (image (bytesAt m 0 s.curLen)) (offsetsOffset j) = wordAt s.buf (offsetsOffset j) := by
    intro j hj
    exact wordAt_congr fun k hk => himage _ (by rw [offsetsOffset]; omega)
      (by rw [offsetsOffset]; omega)
  have hwordLen : wordAt (image (bytesAt m 0 s.curLen)) lenOffset = s.len := by
    rw [← hlen]
    exact wordAt_congr fun k hk => image_bytesAt m (by rw [lenOffset]; omega)
  -- count, offsets, contents, unused offsets, length, end and checksum
  refine ⟨?_, ?_, ?_, ?_, ?_, ?_, ?_⟩
  · rw [← hinv.count]
    exact hcount
  · intro j p hp
    have hj := (List.getElem?_eq_some_iff.mp hp).1
    rw [hword j (by rw [← hinv.count] at hj; omega), hinv.placed j p hp]
  -- an empty file has no bytes that could differ
  · intro p hp hmoved
    by_cases hne : p.content = []
    · rw [hne]
      exact List.take_zero
    · obtain ⟨hpos, hend, hbytes⟩ := hinv.unchanged p hp hmoved hne
      rw [← bytesAt_getD (by rw [length_bytesAt]; exact hend)]
      change bytesAt (image (bytesAt m 0 s.curLen)) _ _ = _
      rw [bytesAt_congr fun k hk => himage (p.pos + k) (by omega) (by omega), hbytes]
  · intro j hj hj'
    rw [← hinv.count] at hj
    rw [hword j hj']
    split at hunused
    · rename_i hversion
      rw [hversion] at hj'
      change j < 4 at hj'
      omega
    · rename_i hversion
      have hlimit : limit s.trxVersion = 3 := if_neg hversion
      -- what `malloc` left there is 0
      have hzero : ∀ k < 4, s.buf (offsetsOffset j + k) = 0 := by
        intro k hk
        have h3 : offsetsOffset 3 = 28 := rfl
        have hlow : offsetsOffset s.i ≤ offsetsOffset j + k := by
          rw [offsetsOffset, offsetsOffset]
          omega
        have hhigh : offsetsOffset j + k < offsetsOffset 3 := by
          rw [offsetsOffset]
          omega
        rw [hinv.unused _ hlow hhigh, hunused _ hlow hhigh]
      change _ = wordAt (fun _ => 0) (offsetsOffset j)
      exact wordAt_congr hzero
  · rw [hwordLen, hinv.len_eq, length_bytesAt]
  · rw [hwordLen, length_bytesAt]
    exact hle
  -- the checksum covers the flags on, and the bin-header flags are zeroed in both
  · have hwordCrc : wordAt (image (bytesAt m 0 s.curLen)) crc32Offset = wordAt m crc32Offset :=
      wordAt_congr fun k hk => image_bytesAt m (by rw [crc32Offset]; omega)
    rw [hwordCrc, hcrc, crcOf, covered, hwordLen]
    congr 2
    apply bytesAt_congr
    intro k hk
    have hbuf := himage (flagVersionOffset + k) (by rw [flagVersionOffset]; omega)
      (by omega)
    split
    · rename_i hversion
      have hoffset := hword 3 (by rw [hversion]; decide)
      rw [flagged, hoffset, writeBytes, writeBytes, hbuf]
      rfl
    · exact hbuf.symm

/-- A page is filled up. -/
private theorem fits_page {maxlen n : Nat} (hdvd : 0x1000 ∣ maxlen) (hle : n ≤ maxlen) :
    n + pad4096 n ≤ maxlen := by
  rw [pad4096]
  split <;> omega

/-- The state whose checksum is taken. -/
def St.closed (s : St) : St :=
  { s with
    buf := writeBytes (writeBytes s.buf flagVersionOffset (leBytes 4 (s.trxVersion <<< 16))) s.curLen
      (List.replicate (pad4096 s.curLen) 0)
    curLen := s.curLen + pad4096 s.curLen }

/-- The image is padded and gets its header. -/
theorem finish_eq {written : Bool} (hopened : s.opened = true) (hpage : 0x1000 ≤ s.maxlen)
    (hfits : s.Fits (s.curLen + pad4096 s.curLen)) :
    s.finish written = s.closed.seal written := by
  rw [St.finish, St.write_eq (by rw [length_leBytes, flagVersionOffset]; omega), ok_bind,
    if_neg (not_not.mpr hopened)]
  have hzeros := St.zeros_eq (n := pad4096 s.curLen) (s := { s with
    buf := writeBytes s.buf flagVersionOffset (leBytes 4 (s.trxVersion <<< 16)) }) hfits
  change (St.zeros _ (pad4096 s.curLen) >>= _) = _
  rw [hzeros]
  rfl

/-- Padding keeps the invariant. -/
theorem Inv.closed (hinv : Inv w heap g s) (hfits : s.Fits (s.curLen + pad4096 s.curLen)) :
    Inv w heap g s.closed := by
  refine hinv.forward s.opened ?_ (Nat.le_add_right _ _) hfits
  intro a ha ha'
  rw [writeBytes_of_lt _ ha',
    writeBytes_of_le _ (by rw [length_leBytes, flagVersionOffset]; omega)]

/-- The bin-header is restored. -/
private theorem restored {buf : Mem} {pos crc len a : Nat} (ha : 12 ≤ a) :
    writeBytes (sealed (flagged buf pos) crc len) pos (bytesAt buf pos sizeofBinheader) a =
      buf a := by
  have hlength : (bytesAt buf pos sizeofBinheader).length = 32 := length_bytesAt _ _ _
  by_cases hlow : a < pos
  · rw [writeBytes_of_lt _ hlow, sealed_of_lt ha, flagged, writeBytes_of_lt _ (by omega)]
  · obtain ⟨k, rfl⟩ := Nat.exists_eq_add_of_le (Nat.not_lt.mp hlow)
    by_cases hk : k < 32
    · rw [writeBytes_add _ _ (by omega), sizeofBinheader, getD_bytesAt _ _ hk]
    · rw [writeBytes_of_le _ (by omega), sealed_of_lt ha, flagged,
        writeBytes_of_le _ (by rw [List.length_replicate]; omega)]

/-- In front of the checksum, the program ends with an error or with a consistent image. -/
private theorem seal_consistent (hinv : Inv w heap g s) (hfsmark : s.fsmark ≤ s.curLen)
    (hgood : if s.trxVersion = 2 then s.i = 4 ∧ s.offset3 ≤ s.curLen
      else ∀ a, offsetsOffset s.i ≤ a → a < offsetsOffset 3 → heap a = 0) (written : Bool) :
    s.seal written = .error .exit ∨
      ∃ out, s.seal written = .ok out ∧ Consistent s.trxVersion g out := by
  have hheader := Nat.le_trans s.headerSize_bounds.1 hinv.header_le
  have hmax := hinv.le_maxlen
  have hlt := hinv.curLen_lt
  -- the length is the position or a mark, which is behind the header
  have hlen : s.len ≤ s.curLen := by
    rw [St.len]
    split <;> omega
  have hlen' : flagVersionOffset ≤ s.len := by
    rw [hinv.len_eq, flagVersionOffset]
    cases hmark : g.mark with
    | none => exact Nat.le_trans (by decide) hheader
    | some m => exact Nat.le_trans (by decide) (hinv.mark m hmark)
  have hcrc (buf : Mem) : crcOf buf s.len < 2 ^ 32 := UInt32.toNat_lt _
  -- version 1 has no bin-header; in version 2 it is written back behind the checksum
  rcases hinv.version with hversion | hversion
  · rw [seal_v1 hversion hinv.page_le hmax hlen' (Nat.le_trans hlen hmax)]
    split
    · exact .inl rfl
    · have h1 : ¬s.trxVersion = 2 := by omega
      rw [if_neg h1] at hgood
      refine .inr ⟨_, rfl, hinv.consistent (fun a ha => sealed_of_lt ha)
        (wordAt_sealed_len _ _ (by omega)) hlen ?_ ?_⟩
      · rw [wordAt_sealed_crc32 _ _ (hcrc _), if_neg h1]
      · rw [if_neg h1]
        exact hgood
  · rw [if_pos hversion] at hgood
    obtain ⟨hi, hpos'⟩ := hgood
    -- the fourth file is behind the header
    have hpos : sizeofHeader ≤ s.offset3 := by
      have hthree : 3 < g.pieces.length := by
        rw [← hinv.count, hi]
        decide
      have hp := List.getElem?_eq_getElem hthree
      rw [show s.offset3 = g.pieces[3].pos from hinv.placed 3 _ hp]
      exact hinv.binheader _ hp
    rw [seal_v2 hversion hinv.page_le hmax hlt hlen' (Nat.le_trans hlen hmax) hpos hpos']
    split
    · exact .inl rfl
    · rename_i hsmall
      rw [sizeofHeader] at hpos
      -- the bin-header is behind the length and the checksum
      have hbefore {pos : Nat} (h : pos + 4 ≤ sizeofHeader) (buf : Mem) (l : List UInt8) :
          wordAt (writeBytes buf s.offset3 l) pos = wordAt buf pos := by
        rw [sizeofHeader] at h
        exact wordAt_congr fun k hk => writeBytes_of_lt l (by omega)
      refine .inr ⟨_, rfl, hinv.consistent (fun a ha => restored ha) ?_ hlen ?_ ?_⟩
      · rw [hbefore (by decide), wordAt_sealed_len _ _ (by omega)]
      · rw [if_pos hversion, hbefore (by decide), wordAt_sealed_crc32 _ _ (hcrc _)]
      · rw [if_pos hversion]
        exact hi

/-- Behind the options the program ends with an error, or with a consistent image. -/
theorem finish_consistent (hinv : Inv w heap g s) (hgood : s.GoodFinish heap) (written : Bool) :
    s.finish written = .error .exit ∨
      ∃ out, s.finish written = .ok out ∧ Consistent s.trxVersion g out := by
  cases hopened : s.opened with
  | false =>
    left
    have hpage := hinv.page_le
    rw [St.finish, St.write_eq (by rw [length_leBytes, flagVersionOffset]; omega), ok_bind,
      if_pos (by simp [hopened])]
    rfl
  | true =>
    obtain ⟨hlt, hfsmark, hgood⟩ := hgood hopened
    have hfits : s.Fits (s.curLen + pad4096 s.curLen) :=
      ⟨fits_page hinv.page_dvd hinv.le_maxlen, hlt⟩
    -- the padding closes the page, the seal follows
    rw [finish_eq hopened hinv.page_le hfits]
    refine seal_consistent (s := s.closed) (hinv.closed hfits) hfsmark ?_ written
    change if s.trxVersion = 2 then _ else _
    split
    · rename_i hversion
      rw [if_pos hversion] at hgood
      refine ⟨hgood.1, ?_⟩
      -- the padding is behind the offset
      have hheader := hinv.header_le
      rw [St.headerSize, hversion] at hheader
      change 32 ≤ s.curLen at hheader
      have hoffset : s.closed.offset3 = s.offset3 := by
        apply wordAt_congr
        intro k hk
        rw [St.closed]
        dsimp only
        rw [writeBytes_of_lt _ (by rw [offsetsOffset]; omega),
          writeBytes_of_le _ (by rw [length_leBytes, flagVersionOffset, offsetsOffset]; omega)]
      rw [hoffset]
      exact hgood.2
    · rename_i hversion
      rw [if_neg hversion] at hgood
      exact hgood

/-! ### Whole runs -/

/-- The start of the program meets the invariant. -/
theorem init_inv (hw : 32 ≤ w) (heap : Mem) : Inv w heap ⟨[], none⟩ (St.init heap) where
  version := .inl rfl
  header_le := Nat.le_refl _
  le_maxlen := show sizeofHeader - 4 ≤ trxMaxLen by decide
  curLen_lt := show sizeofHeader - 4 < 2 ^ 32 by decide
  page_le := show 0x1000 ≤ trxMaxLen by decide
  page_dvd := show 0x1000 ∣ trxMaxLen by decide
  maxlen_lt := Nat.lt_of_lt_of_le (show trxMaxLen < 2 ^ 32 by decide)
    (Nat.pow_le_pow_right Nat.two_pos hw)
  count := rfl
  count_le := Nat.zero_le _
  placed j p hp := by cases hp
  binheader p hp := by cases hp
  unchanged p hp := by cases hp
  unused a ha ha' := by
    change 16 ≤ a at ha
    exact writeBytes_of_le _ (by rw [length_leBytes]; omega)
  fsmark := rfl
  mark m hm := by cases hm

/-- If every option meets its condition, no access leaves the buffer, `-a n` moves to a multiple of
    `n`, and the image is consistent. -/
theorem main_consistent (hw : 32 ≤ w) {heap : Mem} {opts : List (Opt w)}
    (hgood : GoodRun heap (St.init heap) opts) (written : Bool) : Holds heap opts written := by
  have hinit := init_inv hw heap
  have hgood' := hgood
  rw [← List.append_nil opts] at hgood'
  have hrun := run_inv hw hinit hgood'
  -- no stray access, alignment at each `-a`, and the image at the end
  refine ⟨?_, ?_, ?_⟩
  · rw [main]
    rcases hrun with hrun | ⟨s, hrun, hinv, hfinish⟩
    · rw [hrun]
      exact Except.error.inj.mt (by decide)
    · rw [hrun, ok_bind]
      rcases finish_consistent hinv hfinish written with hend | ⟨out, hend, -⟩
      · rw [hend]
        exact Except.error.inj.mt (by decide)
      · rw [hend]
        intro h
        cases h
  · rintro pre n post s rfl - hs
    rw [run_append] at hs
    obtain ⟨s₁, hs₁, hs⟩ := bind_ok hs
    obtain ⟨s₂, hstep, hs⟩ := bind_ok hs
    obtain rfl := Except.ok.inj hs
    -- the options in front of `-a` keep the invariant
    rcases run_inv hw hinit hgood with hpre | ⟨s', hpre, hinv, hgood₁, -⟩
    · rw [hpre] at hs₁
      cases hs₁
    · rw [hpre] at hs₁
      obtain rfl := Except.ok.inj hs₁
      exact align_dvd hinv hgood₁ hstep
  -- the state the options reach is the one the invariant speaks of
  · intro s out hs hout
    rcases hrun with hrun | ⟨s', hrun, hinv, hfinish⟩
    · rw [hrun] at hs
      cases hs
    · rw [hrun] at hs
      obtain rfl := Except.ok.inj hs
      rcases finish_consistent hinv hfinish written with hend | ⟨out', hend, hconsistent⟩
      · rw [hend] at hout
        cases hout
      · rw [hend] at hout
        obtain rfl := Except.ok.inj hout
        exact hconsistent

/-- Options whose every condition is met. -/
def sampleOpts : List (Opt 64) :=
  [.maxlen (some 0x1fff) (some fun _ => 0), .file (some [1, 2, 3]), .align (some 64),
    .fsmark (some [7]), .relative (some 8), .relative (some (-4)), .absolute (some 0x200)]

/-- Options of each kind. -/
theorem main_consistent_sample : Holds (fun _ => 0) sampleOpts true :=
  main_consistent (by decide) (show GoodRun _ _ sampleOpts by decide +kernel) true

/-- `trx -a 3 -f file` -/
def oddAlign : List (Opt 64) := [.align (some 3), .file (some [1])]

/-- The mask moves to no multiple of 3, and the image is written. -/
theorem oddAlign_not_holds :
    (∃ out, main (fun _ => 0) oddAlign true = .ok out) ∧ ¬Holds (fun _ => 0) oddAlign true := by
  constructor
  · have hrun : ∃ s, (St.init fun _ => 0).run oddAlign = .ok s ∧ s.trxVersion = 1 ∧
        s.opened = true ∧ s.maxlen = trxMaxLen ∧ s.curLen = 32 ∧ s.fsmark = 0 :=
      ⟨_, rfl, rfl, rfl, rfl, rfl, rfl⟩
    obtain ⟨s, hrun, hversion, hopened, hmaxlen, hpos, hfsmark⟩ := hrun
    have hend : s.closed.curLen = 0x1000 := by
      rw [St.closed, hpos]
      rfl
    have hlen : s.closed.len = 0x1000 := (if_neg (not_not.mpr hfsmark)).trans hend
    have hmax : s.closed.maxlen = trxMaxLen := hmaxlen
    rw [main, hrun, ok_bind, finish_eq hopened (by rw [hmaxlen]; decide)
        (by rw [hpos]; exact ⟨by rw [hmaxlen]; decide, by decide⟩),
      seal_v1 (s := s.closed) hversion (by rw [hmax]; decide) (by rw [hmax, hend]; decide)
        (by rw [hlen]; decide) (by rw [hmax, hlen]; decide),
      if_neg (by rw [hend]; decide)]
    exact ⟨_, rfl⟩
  · intro h
    -- `3 - 1` masks bit 1 only, which 28 does not have: the position stays where it is
    have hdvd : 3 ∣ 28 := h.2.1 [] 3 [.file (some [1])] _ rfl (by decide) rfl
    exact absurd hdvd (by decide)

end HandsomeMod.Native.Trx
