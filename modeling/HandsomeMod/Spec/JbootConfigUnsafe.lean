import HandsomeMod.ForStd.Except
import HandsomeMod.Native.JbootConfig

/-!
# Reading behind a JBOOT config partition

The last loop of `find_header` is entered whenever both headers are found. It ends only by a header
that reaches behind the buffer, so that no buffer is read safely.
-/

namespace HandsomeMod.Native.JbootConfig

open ForStd

variable {k : Machine}

/-! ### The property -/

/-- A CSXF header with a correct checksum. -/
def IsCsxf (k : Machine) (buf : List UInt8) (p : Nat) : Prop :=
  ∃ buf', checkCsxf k buf p = .ok (true, buf')

/-- A header that lies in the buffer together with its data. -/
def InBuffer (k : Machine) (buf : List UInt8) (p : Nat) : Prop :=
  ∃ length, load k buf 2 (p + 4) = .ok length ∧
    p % 2 ^ k.w + dataHeaderSize + length ≤ buf.length

/-- The header at `q` begins behind the data of the header at `p`. -/
def Behind (k : Machine) (buf : List UInt8) (p q : Nat) : Prop :=
  ∃ length, load k buf 2 (p + 4) = .ok length ∧ p + dataHeaderSize + length ≤ q

/-- `find_header` ends without an access outside of the buffer or the table, its count is positive
    only behind a STAG and a CSXF header, and that many headers are returned, which lie in the
    buffer one behind the other; nor do the uses of the table leave it or the buffer. -/
def SafeAndHonest (k : Machine) (buf : List UInt8) (startOffset : UInt32) : Prop :=
  ∃ found, findHeader k buf startOffset.toNat = .ok found ∧
    found.dataTable.length ≤ maxDataHeader ∧
    (0 < found.ret →
      (∃ p, isStag k buf p = .ok true ∧ IsCsxf k buf (p + stagSize)) ∧
      (∀ i < found.ret.toNat, ∃ p, found.dataTable[i]? = some p ∧ InBuffer k found.buf p) ∧
      found.dataTable.Pairwise (Behind k found.buf)) ∧
    ∀ opts written, opts.startOffset = startOffset →
      ∃ output, main k opts written (some buf) = .ok output

/-! ### Accesses -/

/-- A load that succeeds is inside of the buffer. -/
private theorem load_eq_ok {buf : List UInt8} {n p v : Nat} (h : load k buf n p = .ok v) :
    ∀ i < n, (p + i) % 2 ^ k.w < buf.length := by
  rw [load] at h
  split at h
  · assumption
  · cases h

/-- A pointer into the buffer or to its end that is moved by a few bytes does not wrap. -/
private theorem add_mod_two_pow {w p i size : Nat} (hw : 32 ≤ w) (hsize : size < 2 ^ (w - 1))
    (hp : p % 2 ^ w ≤ size + 2 ^ 17) (hi : i ≤ 2 ^ 17) : (p + i) % 2 ^ w = p % 2 ^ w + i := by
  have hpow : 2 ^ w = 2 * 2 ^ (w - 1) := by
    rw [← Nat.pow_succ']
    congr 1
    omega
  have hle : 2 ^ 31 ≤ 2 ^ (w - 1) := Nat.pow_le_pow_right Nat.two_pos (by omega)
  rw [Nat.add_mod, Nat.mod_eq_of_lt (a := i) (by omega), Nat.mod_eq_of_lt (by omega)]

/-- What `n` bytes hold fits `n` bytes. -/
private theorem load_lt {buf : List UInt8} {n p v : Nat} (h : load k buf n p = .ok v) :
    v < 2 ^ (8 * n) := by
  rw [load] at h
  split at h
  · cases h
    cases k.endian with
    | little => exact loadBE_lt n _
    | big => exact loadBE_lt n _
  · cases h

/-! ### The last loop -/

variable {buf : List UInt8}

/-- Behind the buffer the loop ends, or it reads there. -/
private theorem dataLoop_outside (hw : 32 ≤ k.w) (hsize : buf.length < 2 ^ (k.w - 1)) {fuel p : Nat}
    {dataTable dataTable' : List Nat} (hp : buf.length < p % 2 ^ k.w)
    (hnear : p % 2 ^ k.w ≤ buf.length + 2 ^ 17)
    (h : dataLoop k buf fuel p dataTable = .ok dataTable') : dataTable' = dataTable := by
  cases fuel with
  | zero => cases h
  | succ fuel =>
    rw [dataLoop] at h
    split at h
    · obtain ⟨unknown, hunknown, -⟩ := bind_ok h
      have hread := load_eq_ok hunknown 0 (by decide)
      rw [Nat.add_zero, add_mod_two_pow hw hsize hnear (by decide)] at hread
      omega
    · exact (Except.ok.inj h).symm

/-- From a place in the buffer or at its end, the loop ends with a header that reaches behind the
    buffer. -/
private theorem dataLoop_last (hw : 32 ≤ k.w) (hsize : buf.length < 2 ^ (k.w - 1)) {fuel p : Nat}
    {dataTable dataTable' : List Nat} (hp : p % 2 ^ k.w ≤ buf.length)
    (h : dataLoop k buf fuel p dataTable = .ok dataTable') :
    ∃ front q length, dataTable' = front ++ [q] ∧ load k buf 2 (q + 4) = .ok length ∧
      buf.length < q % 2 ^ k.w + dataHeaderSize + length := by
  induction fuel generalizing p dataTable with
  | zero => cases h
  | succ fuel ih =>
    have hmod {i : Nat} (hi : i ≤ 2 ^ 17) : (p + i) % 2 ^ k.w = p % 2 ^ k.w + i :=
      add_mod_two_pow hw hsize (by omega) hi
    have hturn : p % 2 ^ 32 ≤ buf.length := by
      rw [← Nat.mod_mod_of_dvd p (Nat.pow_dvd_pow 2 hw)]
      exact Nat.le_trans (Nat.mod_le _ _) hp
    rw [dataLoop, if_pos hturn] at h
    obtain ⟨unknown, hunknown, h⟩ := bind_ok h
    -- `unknown` is read, so the end of the buffer is not reached yet
    have hread := load_eq_ok hunknown 0 (by decide)
    rw [Nat.add_zero, hmod (by decide)] at hread
    have hnext : (p + 1) % 2 ^ k.w ≤ buf.length := by
      rw [hmod (by decide)]
      omega
    split at h
    · exact ih hnext h
    · obtain ⟨type, -, h⟩ := bind_ok h
      split at h
      · exact ih hnext h
      · split at h
        · cases h
        · obtain ⟨length, hlength, h⟩ := bind_ok h
          have hlt : length < 2 ^ 16 := load_lt hlength
          have hsix : dataHeaderSize = 6 := rfl
          -- an entry is at most 2 ^ 17 bytes, so the jump does not wrap
          have hjump : (p + dataHeaderSize + length) % 2 ^ k.w =
              p % 2 ^ k.w + (dataHeaderSize + length) := by
            rw [Nat.add_assoc, hmod (by omega)]
          by_cases hin : p % 2 ^ k.w + dataHeaderSize + length ≤ buf.length
          · exact ih (by omega) h
          -- the entry reaches out of the buffer: it is stored, and the loop ends behind it
          · refine ⟨dataTable, p, length, ?_, hlength, by omega⟩
            exact dataLoop_outside hw hsize (by omega) (by omega) h

/-! ### The whole search -/

/-- A store keeps the length of the buffer. -/
private theorem length_store16 {buf' : List UInt8} {p v : Nat} (h : store16 k buf p v = .ok buf') :
    buf'.length = buf.length := by
  rw [store16] at h
  split at h
  · cases h
    rw [List.length_set, List.length_set]
  · cases h

/-- A CSXF header that is taken was read up to its last field. -/
private theorem checkCsxf_ok {buf' : List UInt8} {p : Nat}
    (h : checkCsxf k buf p = .ok (true, buf')) :
    buf'.length = buf.length ∧ (p + 12 + 3) % 2 ^ k.w < buf.length := by
  rw [checkCsxf] at h
  obtain ⟨magic, -, h⟩ := bind_ok h
  split at h
  · cases h
  · obtain ⟨tmpChecksum, -, h⟩ := bind_ok h
    obtain ⟨cleared, hcleared, h⟩ := bind_ok h
    obtain ⟨rawLength, hraw, h⟩ := bind_ok h
    obtain ⟨sum, -, h⟩ := bind_ok h
    obtain ⟨buf'', hstored, h⟩ := bind_ok h
    obtain ⟨checksum, -, h⟩ := bind_ok h
    -- the record is written back at its length
    cases (Prod.mk.inj (Except.ok.inj h)).2
    rw [← length_store16 hcleared]
    exact ⟨length_store16 hstored, load_eq_ok hraw 3 (by decide)⟩

/-- The place behind it is in the buffer, or at its end. -/
private theorem csxf_end (hw : 32 ≤ k.w) (hsize : buf.length < 2 ^ (k.w - 1)) {buf' : List UInt8}
    {p : Nat}
    (h : checkCsxf k buf (p + stagSize) = .ok (true, buf')) :
    buf'.length = buf.length ∧ (p + stagSize + csxfSize) % 2 ^ k.w ≤ buf.length := by
  obtain ⟨hlen, hlast⟩ := checkCsxf_ok h
  have hone := add_mod_two_pow (p := p + stagSize + 12 + 3) hw hsize (by omega)
    (show 1 ≤ 2 ^ 17 by decide)
  have hsixteen : p + stagSize + csxfSize = p + stagSize + 12 + 3 + 1 := rfl
  rw [hsixteen, hone]
  exact ⟨hlen, by omega⟩

/-! ### Turns -/

/-- A computation that does not run out of turns. -/
def Ends {α : Type} (x : Except Stop α) : Prop := x ≠ .error .fuel

/-- A value ends. -/
theorem Ends.ok {α : Type} (a : α) : Ends (.ok a) := fun h => by cases h

/-- A sequence of parts that end ends. -/
theorem Ends.bind {α β : Type} {x : Except Stop α} {f : α → Except Stop β} (hx : Ends x)
    (hf : ∀ a, x = .ok a → Ends (f a)) : Ends (x >>= f) := by
  cases x with
  | error e => exact fun h => hx (congrArg Except.error (Except.error.inj h))
  | ok a => exact hf a rfl

/-- Reading a byte ends. -/
private theorem byteAt_ends (k : Machine) (buf : List UInt8) (p : Nat) : Ends (byteAt k buf p) := by
  rw [byteAt]
  split <;> exact fun h => by cases h

/-- Loading a field ends. -/
private theorem load_ends (k : Machine) (buf : List UInt8) (n p : Nat) : Ends (load k buf n p) := by
  rw [load]
  split <;> exact fun h => by cases h

/-- Storing a field ends. -/
private theorem store16_ends (k : Machine) (buf : List UInt8) (p v : Nat) : Ends (store16 k buf p v)
    := by
  rw [store16]
  split <;> exact fun h => by cases h

/-- Comparing a magic ends. -/
private theorem startsWith_ends (k : Machine) (buf : List UInt8) (p : Nat) (hdr : List UInt8) :
    Ends (startsWith k buf p hdr) := by
  induction hdr generalizing p with
  | nil => exact .ok true
  | cons c hdr ih =>
    refine .bind (byteAt_ends k buf p) fun b _ => ?_
    split
    · exact ih (p + 1)
    · exact .ok false

/-- The checksum ends. -/
private theorem checksumLoop_ends (k : Machine) (buf : List UInt8) (size p counter : Nat) :
    Ends (checksumLoop k buf size p counter) := by
  fun_induction checksumLoop k buf size p counter with
  | case1 size p counter ih => exact .bind (load_ends k buf 2 p) fun v _ => ih v
  | case2 p counter => exact .bind (byteAt_ends k buf p) fun b _ => .ok _
  | case3 p counter => exact .ok _

/-- The check of an STAG ends. -/
private theorem isStag_ends (k : Machine) (buf : List UInt8) (p : Nat) : Ends (isStag k buf p) := by
  refine .bind (startsWith_ends k buf p tmpHdr) fun found _ => ?_
  split
  · exact .bind (load_ends k buf 2 (p + 14)) fun tagChecksum _ =>
      .bind (checksumLoop_ends k buf _ p 0) fun sum _ => .ok _
  · exact .ok false

/-- The check of a CSXF ends. -/
private theorem checkCsxf_ends (k : Machine) (buf : List UInt8) (p : Nat) : Ends (checkCsxf k buf p)
    := by
  refine .bind (load_ends k buf 2 p) fun magic _ => ?_
  split
  · exact .ok _
  · exact .bind (load_ends k buf 2 (p + 2)) fun _ _ =>
      .bind (store16_ends k buf (p + 2) 0) fun cleared _ =>
      .bind (load_ends k cleared 4 (p + 12)) fun rawLength _ =>
      .bind (checksumLoop_ends k cleared _ p 0) fun sum _ =>
      .bind (store16_ends k cleared (p + 2) (not16 sum)) fun stored _ =>
      .bind (load_ends k stored 2 (p + 2)) fun _ _ => .ok _

/-- A byte that is read is inside of the buffer. -/
private theorem byteAt_eq_ok {p : Nat} {b : UInt8} (h : byteAt k buf p = .ok b) :
    p % 2 ^ k.w < buf.length := by
  rw [byteAt] at h
  split at h
  · assumption
  · cases h

/-- The first loop ends: behind the buffer, or by the read at its end. -/
private theorem stagLoop_ends (hw : 32 ≤ k.w) (hsize : buf.length < 2 ^ 32) {fuel p : Nat}
    (hp : p < 2 ^ 32) (hpos : 0 < fuel) (hfuel : buf.length + 1 < p + fuel) :
    Ends (stagLoop k buf fuel p) := by
  induction fuel generalizing p with
  | zero => exact absurd hpos (Nat.lt_irrefl 0)
  | succ fuel ih =>
    rw [stagLoop, Nat.mod_eq_of_lt hp]
    split
    · refine .bind (isStag_ends k buf p) fun found hfound => ?_
      split
      · exact .ok p
      -- a read inside the buffer bounds the position, so the loop gets nearer to its end
      · rw [isStag] at hfound
        obtain ⟨starts, hstarts, -⟩ := bind_ok hfound
        obtain ⟨b, hb, -⟩ := bind_ok hstarts
        have hread := byteAt_eq_ok hb
        rw [Nat.mod_eq_of_lt (Nat.lt_of_lt_of_le hp (Nat.pow_le_pow_right Nat.two_pos hw))] at hread
        exact ih (by omega) (by omega) (by omega)
    · exact .ok p

/-- So does the last one. -/
private theorem dataLoop_ends (hw : 32 ≤ k.w) (hsize : buf.length < 2 ^ (k.w - 1)) {fuel p : Nat}
    {dataTable : List Nat} (hp : p % 2 ^ k.w ≤ buf.length + 2 ^ 17) (hpos : 0 < fuel)
    (hfuel : buf.length + 1 < p % 2 ^ k.w + fuel) : Ends (dataLoop k buf fuel p dataTable) := by
  -- every turn moves `p` on, up to the end of the buffer
  induction fuel generalizing p dataTable with
  | zero => exact absurd hpos (Nat.lt_irrefl 0)
  | succ fuel ih =>
    have hmod {i : Nat} (hi : i ≤ 2 ^ 17) : (p + i) % 2 ^ k.w = p % 2 ^ k.w + i :=
      add_mod_two_pow hw hsize hp hi
    rw [dataLoop]
    split
    · refine .bind (load_ends k buf 2 (p + 2)) fun unknown hunknown => ?_
      have hread := load_eq_ok hunknown 0 (by decide)
      rw [Nat.add_zero, hmod (by decide)] at hread
      have hnext (dataTable : List Nat) : Ends (dataLoop k buf fuel (p + 1) dataTable) := by
        have hone := hmod (show 1 ≤ 2 ^ 17 by decide)
        exact ih (by omega) (by omega) (by omega)
      split
      · exact hnext dataTable
      · refine .bind (byteAt_ends k buf (p + 1)) fun type _ => ?_
        split
        · exact hnext dataTable
        · split
          · exact fun h => by cases h
          · refine .bind (load_ends k buf 2 (p + 4)) fun length hlength => ?_
            have hlt : length < 2 ^ 16 := load_lt hlength
            have hsix : dataHeaderSize = 6 := rfl
            have hjump := hmod (show dataHeaderSize + length ≤ 2 ^ 17 by omega)
            rw [← Nat.add_assoc] at hjump
            exact ih (by omega) (by omega) (by omega)
    · exact .ok _

/-- `find_header` ends. -/
theorem findHeader_ends (hw : 32 ≤ k.w) (hsize : buf.length < 2 ^ (k.w - 1))
    (hsize' : buf.length < 2 ^ 32) (startOffset : UInt32) :
    Ends (findHeader k buf startOffset.toNat) := by
  refine .bind (stagLoop_ends hw hsize' startOffset.toNat_lt (by omega) (by omega)) fun p _ => ?_
  refine .bind (checkCsxf_ends k buf (p + stagSize)) fun r hr => ?_
  obtain ⟨taken, buf'⟩ := r
  cases taken with
  | false => exact .ok _
  | true =>
    obtain ⟨hlen, hentry⟩ := csxf_end hw hsize hr
    refine .bind (dataLoop_ends hw (hlen ▸ hsize) (by omega) (by omega) (by omega))
      fun dataTable _ => .ok _

/-- No buffer is read safely: the search faults, it fails with a count of 1 and an empty table, or
    its last header reaches behind the buffer. -/
theorem search_unsafe (hw : 32 ≤ k.w) (hsize : buf.length < 2 ^ (k.w - 1)) (startOffset : UInt32) :
    ¬SafeAndHonest k buf startOffset := by
  rintro ⟨found, hfind, -, hret, -⟩
  rw [findHeader] at hfind
  obtain ⟨p, -, h⟩ := bind_ok hfind
  obtain ⟨⟨taken, buf'⟩, hcsxf, h⟩ := bind_ok h
  cases taken with
  | false =>
    -- `EXIT_FAILURE` is a positive count
    cases h
    obtain ⟨q, hq, -⟩ := (hret Int.one_pos).2.1 0 Nat.one_pos
    cases hq
  | true =>
    obtain ⟨dataTable, hdata, h⟩ := bind_ok h
    cases h
    obtain ⟨hlen, hentry⟩ := csxf_end hw hsize hcsxf
    rw [← hlen] at hsize hentry
    obtain ⟨front, q, length, htable, hlength, hbehind⟩ := dataLoop_last hw hsize hentry hdata
    have hcount : dataTable.length = front.length + 1 := by rw [htable, List.length_append]; rfl
    obtain ⟨q', hq', length', hlength', hin⟩ :=
      (hret (by show (0 : Int) < dataTable.length; omega)).2.1 front.length
        (by show front.length < ((dataTable.length : Nat) : Int).toNat; omega)
    have hsame : q = q' := by
      rw [htable, List.getElem?_concat_length] at hq'
      exact Option.some.inj hq'
    rw [← hsame] at hlength' hin
    cases Except.ok.inj (hlength.symm.trans hlength')
    exact absurd hin (by show ¬_ ≤ buf'.length; omega)

/-- The search ends for every buffer, and it is safe and honest for none. -/
theorem findHeader_never_safe (k : Machine) (hw : 32 ≤ k.w) (buf : List UInt8)
    (hsize : buf.length < 2 ^ (k.w - 1)) (hsize' : buf.length < 2 ^ 32) (startOffset : UInt32) :
    Ends (findHeader k buf startOffset.toNat) ∧ ¬SafeAndHonest k buf startOffset :=
  ⟨findHeader_ends hw hsize hsize' startOffset, search_unsafe hw hsize startOffset⟩

/-- A STAG header with a correct checksum, and zeros where the CSXF header should be. -/
def loneStag : List UInt8 :=
  tmpHdr ++ List.replicate 10 0 ++ [0xd9, 0xd2] ++ List.replicate 16 0

/-- A buffer with an STAG alone. -/
theorem findHeader_never_safe_loneStag :
    Ends (findHeader ⟨.little, 32⟩ loneStag (0 : UInt32).toNat) ∧
      ¬SafeAndHonest ⟨.little, 32⟩ loneStag 0 :=
  findHeader_never_safe ⟨.little, 32⟩ (by decide) loneStag (by decide) (by decide) 0

/-- `find_header` fails with a count of one, and the entry that is printed was never written. -/
theorem loneStag_printed :
    findHeader ⟨.little, 32⟩ loneStag 0 = .ok ⟨1, [], loneStag⟩ ∧
      main ⟨.little, 32⟩ ⟨true, false, false, 0⟩ true (some loneStag) = .error .uninit ∧
      ¬SafeAndHonest ⟨.little, 32⟩ loneStag 0 := by
  refine ⟨by decide, by decide, ?_⟩
  exact search_unsafe (by decide) (by decide) 0

end HandsomeMod.Native.JbootConfig
