import HandsomeMod.Spec.PtgenPlace

/-!
# The GUID partition table that is written

The table as it is read from the disk, what makes it valid, and when the generator writes a valid
one.
-/

namespace HandsomeMod.Native.Ptgen

open ForStd

/-! ### The table on a disk -/

def headerAt : Nat := gptHeaderSector * diskSectorSize

def entryAt (i : Nat) : Nat := gptFirstEntrySector * diskSectorSize + i * gptEntrySize

def entryType (m : Mem) (i : Nat) : List UInt8 := bytesAt m (entryAt i) 16

def entryGuid (m : Mem) (i : Nat) : List UInt8 := bytesAt m (entryAt i + 16) 16

def entryStart (m : Mem) (i : Nat) : Nat := loadLE 8 fun k => m (entryAt i + 32 + k)

def entryEnd (m : Mem) (i : Nat) : Nat := loadLE 8 fun k => m (entryAt i + 40 + k)

def headerCrc (m : Mem) : Nat := loadLE 4 fun k => m (headerAt + 16 + k)

def headerFirstUsable (m : Mem) : Nat := loadLE 8 fun k => m (headerAt + 40 + k)

def headerLastUsable (m : Mem) : Nat := loadLE 8 fun k => m (headerAt + 48 + k)

def headerEntryCrc (m : Mem) : Nat := loadLE 4 fun k => m (headerAt + 88 + k)

/-- Entries with a zero type are free. -/
def Used (m : Mem) (i : Nat) : Prop := i < gptEntryMax ∧ entryType m i ≠ List.replicate 16 0

/-- A valid table that holds the partitions asked for. -/
structure GptValid (c : Cfg) (parts : List PartInfo) (m : Mem) : Prop where
  start_le_end : ∀ i, Used m i → entryStart m i ≤ entryEnd m i
  usable : ∀ i, Used m i →
    headerFirstUsable m ≤ entryStart m i ∧ entryEnd m i ≤ headerLastUsable m
  disjoint : ∀ i j, Used m i → Used m j → i ≠ j →
    entryEnd m i < entryStart m j ∨ entryEnd m j < entryStart m i
  guid_ne : ∀ i j, Used m i → Used m j → i ≠ j → entryGuid m i ≠ entryGuid m j
  /-- A partition has its own entry, of its type and not smaller than asked for. -/
  kept : ∀ i p, parts[i]? = some p → p.size ≠ 0 → entryType m i = (partType c i p).toList ∧
    2 * p.size.toNat ≤ entryEnd m i - entryStart m i + 1
  boot : ∃ i, Used m i ∧ entryType m i = guidPartitionBiosBoot.toList
  entryCrc : headerEntryCrc m =
    (gptCrc32 (bytesAt m (entryAt 0) (gptEntrySize * gptEntryMax))).toNat
  /-- The checksum of the header is over the header with a zero checksum. -/
  crc : headerCrc m = (gptCrc32 (bytesAt (writeBytes m (headerAt + 16) (leBytes 4 0))
    headerAt gptHeaderSize)).toNat

/-! ### Reading what was written -/

/-- A GUID has 16 bytes. -/
private theorem length_toList (g : Guid) : g.toList.length = 16 := Vector.length_toList

/-- The header has its size. -/
private theorem length_gpthBytes (h : Gpth) : h.bytes.length = gptHeaderSize := by
  simp only [Gpth.bytes, List.length_append, length_leBytes, length_toList]
  rfl

/-- The header around its checksum. -/
private theorem bytes_crc (h : Gpth) : ∃ pre post : List UInt8, pre.length = 16 ∧
    ∀ crc, { h with crc32 := crc }.bytes = pre ++ (leBytes 4 crc.toNat ++ post) := by
  refine ⟨leBytes 8 gptSignature ++ leBytes 4 gptRevision ++ leBytes 4 gptHeaderSize,
    leBytes 4 0 ++ leBytes 8 gptHeaderSector ++ leBytes 8 h.alternate.toNat ++
      leBytes 8 firstUsable ++ leBytes 8 h.lastUsable.toNat ++ h.diskGuid.toList ++
      leBytes 8 gptFirstEntrySector ++ leBytes 4 gptEntryMax ++ leBytes 4 gptEntrySize ++
      leBytes 4 h.entryCrc32.toNat, ?_, ?_⟩
  · simp only [List.length_append, length_leBytes]
  · intro crc
    simp only [Gpth.bytes, List.append_assoc]

/-- A header and an array of entries stand on the disk. -/
structure OnDisk (gpth : Gpth) (gpte : Nat → Gpte) (m : Mem) : Prop where
  header : bytesAt m headerAt gptHeaderSize = gpth.bytes
  array : bytesAt m (entryAt 0) (gptEntrySize * gptEntryMax) = gpteBytes gpte

namespace OnDisk

variable {gpth : Gpth} {gpte : Nat → Gpte} {m : Mem}

/-- A field of an entry. -/
private theorem entry (h : OnDisk gpth gpte m) {i off n : Nat} (hi : i < gptEntryMax)
    (hoff : off + n ≤ 56) :
    bytesAt m (entryAt i + off) n = ((gpte i).bytes.drop off).take n := by
  have hlen : off + n ≤ (gpte i).bytes.length := by
    simp only [Gpte.bytes, List.length_append, length_leBytes, length_toList]
    omega
  rw [← bytesAt_getD hlen]
  apply List.map_congr_left
  intro k hk
  have hk' := List.mem_range.mp hk
  have hi' : i < 128 := hi
  -- byte `k` of the field is in entry `i` of the array, at `off + k`
  have hlt : i * gptEntrySize + off + k < gptEntrySize * gptEntryMax := by
    show i * 128 + off + k < 128 * 128
    omega
  have hdiv : (0 + (i * gptEntrySize + off + k)) / gptEntrySize = i := by
    show (0 + (i * 128 + off + k)) / 128 = i
    omega
  have hmod : (0 + (i * gptEntrySize + off + k)) % gptEntrySize = off + k := by
    show (0 + (i * 128 + off + k)) % 128 = off + k
    omega
  have hread := getD_bytesAt m (entryAt 0) hlt
  rw [h.array, gpteBytes, getD_bytesAt _ _ hlt, gpteMem] at hread
  rw [hdiv, hmod] at hread
  show m (entryAt i + off + k) = (gpte i).bytes.getD (off + k) 0
  rw [hread, entryAt, entryAt]
  congr 1
  omega

/-- The type of an entry on the disk. -/
private theorem entryType_eq (h : OnDisk gpth gpte m) {i : Nat} (hi : i < gptEntryMax) :
    entryType m i = (gpte i).type.toList := by
  rw [entryType, ← Nat.add_zero (entryAt i), h.entry hi (by omega), List.drop_zero, Gpte.bytes]
  simp only [List.append_assoc]
  exact List.take_left' (length_toList _)

/-- The GUID of an entry on the disk. -/
private theorem entryGuid_eq (h : OnDisk gpth gpte m) {i : Nat} (hi : i < gptEntryMax) :
    entryGuid m i = (gpte i).guid.toList := by
  rw [entryGuid, h.entry hi (by omega), Gpte.bytes]
  simp only [List.append_assoc]
  rw [List.drop_left' (length_toList _)]
  exact List.take_left' (length_toList _)

/-- The first sector of an entry on the disk. -/
private theorem entryStart_eq (h : OnDisk gpth gpte m) {i : Nat} (hi : i < gptEntryMax) :
    entryStart m i = (gpte i).start.toNat := by
  apply loadLE_of_bytesAt _ (gpte i).start.toNat_lt
  rw [h.entry hi (by omega), Gpte.bytes]
  simp only [List.append_assoc]
  rw [← List.append_assoc (gpte i).type.toList, List.drop_left' (by simp)]
  exact List.take_left' (length_leBytes 8 _)

/-- The last sector of an entry on the disk. -/
private theorem entryEnd_eq (h : OnDisk gpth gpte m) {i : Nat} (hi : i < gptEntryMax) :
    entryEnd m i = (gpte i).end.toNat := by
  apply loadLE_of_bytesAt _ (gpte i).end.toNat_lt
  rw [h.entry hi (by omega), Gpte.bytes]
  simp only [List.append_assoc]
  rw [← List.append_assoc (gpte i).guid.toList, ← List.append_assoc (gpte i).type.toList,
    List.drop_left' (by simp [length_leBytes])]
  exact List.take_left' (length_leBytes 8 _)

/-- The checksum of the header on the disk. -/
private theorem headerCrc_eq (h : OnDisk gpth gpte m) : headerCrc m = gpth.crc32.toNat := by
  apply loadLE_of_bytesAt _ gpth.crc32.toNat_lt
  rw [bytesAt_sub h.header (by decide)]
  rfl

/-- The first usable sector on the disk. -/
private theorem headerFirstUsable_eq (h : OnDisk gpth gpte m) : headerFirstUsable m = firstUsable
    := by
  apply loadLE_of_bytesAt _ (by decide)
  rw [bytesAt_sub h.header (by decide)]
  rfl

/-- The last usable sector on the disk. -/
private theorem headerLastUsable_eq (h : OnDisk gpth gpte m) :
    headerLastUsable m = gpth.lastUsable.toNat := by
  apply loadLE_of_bytesAt _ gpth.lastUsable.toNat_lt
  rw [bytesAt_sub h.header (by decide)]
  rfl

/-- The checksum of the entries on the disk. -/
private theorem headerEntryCrc_eq (h : OnDisk gpth gpte m) :
    headerEntryCrc m = gpth.entryCrc32.toNat := by
  apply loadLE_of_bytesAt _ gpth.entryCrc32.toNat_lt
  rw [bytesAt_sub h.header (by decide), Gpth.bytes,
    List.drop_left' (by simp only [List.length_append, length_leBytes, length_toList])]
  exact List.take_of_length_le (length_leBytes 4 _).le

/-- The header with its checksum cleared. -/
private theorem clearCrc (h : OnDisk gpth gpte m) :
    bytesAt (writeBytes m (headerAt + 16) (leBytes 4 0)) headerAt gptHeaderSize
      = { gpth with crc32 := 0 }.bytes := by
  obtain ⟨pre, post, hpre, hbytes⟩ := bytes_crc gpth
  have hpost : post.length = 72 := by
    have hlen := length_gpthBytes { gpth with crc32 := 0 }
    rw [hbytes, List.length_append, List.length_append, length_leBytes, hpre] at hlen
    have hsize : gptHeaderSize = 92 := rfl
    omega
  have hsplit : ∀ m : Mem, bytesAt m headerAt gptHeaderSize =
      bytesAt m headerAt 16 ++ (bytesAt m (headerAt + 16) 4 ++ bytesAt m (headerAt + 20) 72) := by
    intro m
    rw [← List.append_assoc, show gptHeaderSize = 16 + 4 + 72 from rfl, bytesAt_add, bytesAt_add]
  -- Only the four bytes of the checksum change.
  have hcrc := bytesAt_writeBytes_self m (headerAt + 16) (leBytes 4 0)
  rw [length_leBytes] at hcrc
  have hheader := h.header
  rw [show gpth = { gpth with crc32 := gpth.crc32 } from rfl, hbytes, hsplit] at hheader
  obtain ⟨hfirst, hrest⟩ := List.append_inj hheader (by rw [length_bytesAt, hpre])
  obtain ⟨-, hlast⟩ := List.append_inj hrest (by rw [length_bytesAt, length_leBytes])
  rw [hbytes, hsplit, bytesAt_writeBytes_before _ _ (by omega), hcrc,
    bytesAt_writeBytes_after _ _ _ (by rw [length_leBytes]), hfirst, hlast]
  rfl

end OnDisk

/-- The table after the loop, with the entry of the boot partition. -/
def withBoot (c : Cfg) (guid : Guid) (gpte : Nat → Gpte) : Nat → Gpte :=
  Function.update gpte (gptEntryMax - 1) (bootEntry c guid (gpte (gptEntryMax - 1)))

/-- What `gen_gptable` writes. -/
private theorem genGptable_onDisk {c : Cfg} {signature : UInt32} {guid : Guid} {active : UInt8}
    {parts : List PartInfo} {m : Mem} (h : genGptable c signature guid active parts = some m) :
    ∃ sect gpte, genEntries c guid parts 0 0 (fun _ => Gpte.zero) = some (sect, gpte) ∧
      OnDisk (gpthOf guid (sect + UInt64.ofNat c.sectors - 1) (withBoot c guid gpte))
        (withBoot c guid gpte) m := by
  rw [genGptable] at h
  cases hgen : genEntries c guid parts 0 0 (fun _ => Gpte.zero) with
  | none =>
    rw [hgen] at h
    cases h
  | some r =>
    rw [hgen] at h
    refine ⟨r.1, r.2, rfl, ?_⟩
    rw [← Option.some.inj h]
    constructor
    -- the header lies in front of the entries
    · rw [bytesAt_writeBytes_before _ _ (by decide)]
      exact bytesAt_writeBytes_eq _ (length_gpthBytes _)
    · exact bytesAt_writeBytes_eq _ (length_bytesAt _ _ _)

/-! ### What the table holds -/

/-- The partitions that get an entry, with their indices. -/
def requested (parts : List PartInfo) : List (PartInfo × Nat) := requestedFrom parts 0

/-- The sectors of the disk: the last partition and one track. -/
def diskSectors (c : Cfg) (hk : 0 ≤ c.kbAlign) (parts : List PartInfo) : Nat :=
  (placer c hk).stop 0 (requested parts) + c.sectors

/-- No sector number of the table wraps around. -/
structure InRange (c : Cfg) (parts : List PartInfo) : Prop extends Exact c where
  disk_lt : diskSectors c kbAlign_nonneg parts < 2 ^ 63

/-- The sector behind the boot partition. -/
def bootNext (c : Cfg) : Nat := alignKb c c.sectors

/-- The boot partition starts behind the first track. -/
private theorem le_bootNext {c : Cfg} (hc : Exact c) : c.sectors ≤ bootNext c :=
  le_alignKb c hc.kbAlign_nonneg

/-- The sector behind the boot partition has 32 bits. -/
private theorem bootNext_lt {c : Cfg} : bootNext c < 2 ^ 32 := by
  have hle := alignKb_le c c.sectors
  have hsectors := c.sectors_lt
  have halign := c.kbAlign_lt
  rw [bootNext]
  omega

/-- The boot partition ends in front of the next one. -/
private theorem bootEntry_end {c : Cfg} (hc : Exact c) (guid : Guid) (e : Gpte) :
    (bootEntry c guid e).end.toNat = bootNext c - 1 := by
  have hsectors := c.sectors_pos
  have hle := le_bootNext hc
  have hlt := bootNext_lt (c := c)
  -- the boot partition ends where the first partition may begin
  have hround : (if c.kbAlign ≠ 0 then roundToKb c (UInt64.ofNat c.sectors)
      else UInt64.ofNat c.sectors).toNat = bootNext c := by
    split
    · next hk =>
      have hpos : 0 < c.kbAlign := by
        have hnonneg := hc.kbAlign_nonneg
        omega
      rw [toNat_roundToKb hpos] <;> rw [toNat_sectors]
      · rfl
      · exact hsectors
      · exact Nat.lt_trans hlt (by decide)
    · next hk => rw [toNat_sectors, bootNext, alignKb, if_pos (not_not.mp hk)]
  have hone : (1 : UInt64) ≤ if c.kbAlign ≠ 0 then roundToKb c (UInt64.ofNat c.sectors)
      else UInt64.ofNat c.sectors := by
    rw [UInt64.le_iff_toNat_le, hround]
    exact Nat.le_trans hsectors hle
  rw [bootEntry, UInt64.toNat_sub_of_le _ _ hone, hround]
  rfl

/-- `last_usable`, which wraps around on a disk that is too small. -/
def lastUsable (n : Nat) : Nat := if 34 ≤ n then n - 34 else 2 ^ 64 + n - 34

/-- The last usable sector, without wrapping around. -/
private theorem toNat_lastUsable {sect sectors : UInt64} (h : sect.toNat + sectors.toNat < 2 ^ 63) :
    (sect + sectors - 1 - UInt64.ofNat gptEntrySectors - 1).toNat
      = lastUsable (sect.toNat + sectors.toNat) := by
  have hsum : (sect + sectors).toNat = sect.toNat + sectors.toNat := toNat_add_of_lt (by omega)
  rw [UInt64.toNat_sub, UInt64.toNat_sub, UInt64.toNat_sub, hsum, lastUsable]
  show (2 ^ 64 - 1 + (2 ^ 64 - 32 + (2 ^ 64 - 1 + (sect.toNat + sectors.toNat)) % 2 ^ 64) %
    2 ^ 64) % 2 ^ 64 = _
  split <;> omega

/-- The partitions that are asked for have a size. -/
private theorem mem_requested {parts : List PartInfo} {x : PartInfo × Nat} :
    x ∈ requested parts ↔ parts[x.2]? = some x.1 ∧ x.1.size ≠ 0 := by
  rw [requested, requestedFrom, List.mem_filter, List.mem_zipIdx_iff_getElem?]
  simp

/-- Where the partitions of a table go. -/
def placedParts {c : Cfg} {parts : List PartInfo} (hr : InRange c parts) :
    List (Placer.Placed (PartInfo × Nat)) :=
  (placer c hr.kbAlign_nonneg).run 0 (requested parts)

/-- What is placed was asked for. -/
private theorem item_mem {c : Cfg} {parts : List PartInfo} {hr : InRange c parts}
    {x : Placer.Placed (PartInfo × Nat)} (hx : x ∈ placedParts hr) : x.item ∈ requested parts := by
  have hmap := List.mem_map_of_mem (f := Placer.Placed.item) hx
  rwa [placedParts, Placer.map_item_run] at hmap

/-- What was asked for is placed. -/
private theorem exists_placed {c : Cfg} {parts : List PartInfo} (hr : InRange c parts)
    {y : PartInfo × Nat} (hy : y ∈ requested parts) : ∃ x ∈ placedParts hr, x.item = y := by
  rw [← Placer.map_item_run (placer c hr.kbAlign_nonneg) 0 (requested parts)] at hy
  exact List.mem_map.mp hy

/-- A placed partition is as large as asked for, and not empty. -/
private theorem size_le {c : Cfg} {parts : List PartInfo} {hr : InRange c parts}
    {x : Placer.Placed (PartInfo × Nat)} (hx : x ∈ placedParts hr) :
    0 < x.item.1.size.toNat ∧ x.start + 2 * x.item.1.size.toNat ≤ x.next := by
  obtain ⟨s, hstart, hnext⟩ := Placer.exists_cursor _ hx
  constructor
  · apply Nat.pos_of_ne_zero
    intro h0
    exact (mem_requested.mp (item_mem hx)).2 (UInt64.toNat_inj.mp h0)
  · rw [hstart, hnext]
    exact add_size_le_partNext c s x.item.1

/-- What a table without wrap-around holds, entry by entry. -/
structure Table {c : Cfg} {parts : List PartInfo} (hr : InRange c parts) (guid : Guid)
    (m : Mem) : Prop where
  boot_type : entryType m 127 = guidPartitionBiosBoot.toList
  boot_start : entryStart m 127 = 34
  boot_end : entryEnd m 127 = bootNext c - 1
  lt : ∀ x ∈ placedParts hr, x.item.2 < gptEntryMax
  type : ∀ x ∈ placedParts hr, x.item.2 ≠ 127 →
    entryType m x.item.2 = (partType c x.item.2 x.item.1).toList
  start : ∀ x ∈ placedParts hr, x.item.2 ≠ 127 → entryStart m x.item.2 = x.start
  «end» : ∀ x ∈ placedParts hr, x.item.2 ≠ 127 → entryEnd m x.item.2 = x.next - 1
  asked : ∀ x ∈ placedParts hr, x.item.1.start ≠ 0 → x.start = 2 * x.item.1.start.toNat
  guid : ∀ i, Used m i → entryGuid m i = (guid.bump (i + 1)).toList
  used : ∀ i, Used m i → i = 127 ∨ ∃ x ∈ placedParts hr, x.item.2 = i ∧ i ≠ 127
  firstUsable : headerFirstUsable m = 34
  lastUsable : headerLastUsable m = lastUsable (diskSectors c hr.kbAlign_nonneg parts)
  entryCrc : headerEntryCrc m =
    (gptCrc32 (bytesAt m (entryAt 0) (gptEntrySize * gptEntryMax))).toNat
  crc : headerCrc m = (gptCrc32 (bytesAt (writeBytes m (headerAt + 16) (leBytes 4 0))
    headerAt gptHeaderSize)).toNat

/-- What `gen_gptable` wrote is the table of the placed partitions. -/
theorem genGptable_table {c : Cfg} {signature : UInt32} {guid : Guid} {active : UInt8}
    {parts : List PartInfo} {m : Mem} (hlen : parts.length ≤ gptEntryMax)
    (h : genGptable c signature guid active parts = some m) (hr : InRange c parts) :
    Table hr guid m := by
  obtain ⟨sect, gpte, hgen, hdisk⟩ := genGptable_onDisk h
  have hbound : (placer c hr.kbAlign_nonneg).stop 0 (requested parts) < 2 ^ 63 :=
    Nat.lt_of_le_of_lt (Nat.le_add_right _ c.sectors) hr.disk_lt
  obtain ⟨hstop, hentries⟩ := genEntries_exact hr.toExact hgen hbound
  -- the last entry is the boot partition's, whatever stood there; the others are as placed
  have hboot : withBoot c guid gpte 127 = bootEntry c guid (gpte 127) := Function.update_self ..
  have hother : ∀ i, i ≠ 127 → withBoot c guid gpte i = gpte i := fun i hi =>
    Function.update_of_ne hi ..
  have hlt : ∀ x ∈ placedParts hr, x.item.2 < gptEntryMax := by
    intro x hx
    have hget := (mem_requested.mp (item_mem hx)).1
    exact Nat.lt_of_lt_of_le (List.getElem?_eq_some_iff.mp hget).1 hlen
  have hpart : ∀ x ∈ placedParts hr, x.item.2 ≠ 127 → ∃ start next : UInt64,
      start.toNat = x.start ∧ next.toNat = x.next ∧ withBoot c guid gpte x.item.2 =
        partEntry c guid x.item.2 x.item.1 start next := by
    intro x hx hi
    rw [hother _ hi]
    exact hentries.entry x hx
  -- an entry in use is one of these, the others have a zero type
  have hused : ∀ i, Used m i → i = 127 ∨ ∃ x ∈ placedParts hr, x.item.2 = i ∧ i ≠ 127 := by
    intro i hi
    by_cases hi' : i = 127
    · exact Or.inl hi'
    · apply Or.inr
      by_contra hnone
      have hnone' : ∀ x ∈ placedParts hr, x.item.2 ≠ i :=
        fun x hx heq => hnone ⟨x, hx, heq, hi'⟩
      apply hi.2
      rw [hdisk.entryType_eq hi.1, hother i hi', hentries.other i hnone']
      rfl
  refine ⟨?_, ?_, ?_, hlt, ?_, ?_, ?_, hentries.asked, ?_, hused, hdisk.headerFirstUsable_eq,
    ?_, ?_, ?_⟩
  · rw [hdisk.entryType_eq (by decide), hboot]
    rfl
  · rw [hdisk.entryStart_eq (by decide), hboot]
    rfl
  · rw [hdisk.entryEnd_eq (by decide), hboot, bootEntry_end hr.toExact]
  · intro x hx hi
    obtain ⟨start, next, -, -, hentry⟩ := hpart x hx hi
    rw [hdisk.entryType_eq (hlt x hx), hentry, partEntry]
  · intro x hx hi
    obtain ⟨start, next, hstart, -, hentry⟩ := hpart x hx hi
    rw [hdisk.entryStart_eq (hlt x hx), hentry, partEntry, hstart]
  · intro x hx hi
    obtain ⟨start, next, -, hnext, hentry⟩ := hpart x hx hi
    have hsize := size_le hx
    have hone : (1 : UInt64) ≤ next := UInt64.le_iff_toNat_le.mpr (by
      show 1 ≤ next.toNat
      omega)
    rw [hdisk.entryEnd_eq (hlt x hx), hentry, partEntry, UInt64.toNat_sub_of_le _ _ hone, hnext]
    rfl
  -- the boot entry has the disk's GUID, the others one counted up from it
  · intro i hi
    rw [hdisk.entryGuid_eq hi.1]
    rcases hused i hi with rfl | ⟨x, hx, rfl, hi'⟩
    · rw [hboot]
      rfl
    · obtain ⟨start, next, -, -, hentry⟩ := hpart x hx hi'
      rw [hentry, partEntry]
  · have hn : sect.toNat + (UInt64.ofNat c.sectors).toNat
        = diskSectors c hr.kbAlign_nonneg parts := by
      rw [toNat_sectors, hstop]
      rfl
    rw [hdisk.headerLastUsable_eq, ← hn]
    exact toNat_lastUsable (by rw [hn]; exact hr.disk_lt)
  · rw [hdisk.headerEntryCrc_eq, hdisk.array]
    rfl
  · rw [hdisk.headerCrc_eq, hdisk.clearCrc]
    rfl

/-! ### When the table is valid -/

/-- The boot partition has a sector behind the array of entries. Where there are partitions, a track
is long enough for `last_usable` to lie behind them, none of them is the 128th, whose entry the
boot partition takes, and the first one does not start inside the boot partition. A table without
partitions is only valid because `last_usable` wraps around. -/
def Sound (c : Cfg) (parts : List PartInfo) : Prop :=
  35 ≤ bootNext c ∧
    match requested parts with
    | [] => c.sectors ≤ 33
    | x :: l => 33 ≤ c.sectors ∧ (∀ y ∈ x :: l, y.2 ≠ 127) ∧
        (x.1.start = 0 ∨ bootNext c ≤ 2 * x.1.start.toNat)

/-- Different entries have different GUIDs. -/
private theorem bump_inj {g : Guid} {i j : Nat} (hi : i < gptEntryMax) (hj : j < gptEntryMax)
    (h : (g.bump (i + 1)).toList = (g.bump (j + 1)).toList) : i = j := by
  have hlast := congrArg (fun v : Guid => v[15]) (Vector.toList_inj.mp h)
  simp only [Guid.bump, Vector.getElem_set_self, UInt8.add_right_inj] at hlast
  have hnat := congrArg UInt8.toNat hlast
  simp only [UInt8.toNat_ofNat'] at hnat
  have hmax : gptEntryMax = 128 := rfl
  omega

/-- The first partition starts behind the boot partition, and all others behind it. -/
private theorem bootNext_le_start {c : Cfg} {parts : List PartInfo} {hr : InRange c parts}
    {x : PartInfo × Nat} {l : List (PartInfo × Nat)} (hreq : requested parts = x :: l)
    (hfirst : x.1.start = 0 ∨ bootNext c ≤ 2 * x.1.start.toNat)
    {y : Placer.Placed (PartInfo × Nat)} (hy : y ∈ placedParts hr) : bootNext c ≤ y.start := by
  have hstart : bootNext c ≤ partStart c 0 x.1 := by
    rw [partStart]
    split
    · next h0 =>
      rcases hfirst with hzero | hle
      · exact absurd hzero h0
      · exact Nat.le_trans hle (Nat.le_max_left _ _)
    · rw [Nat.zero_add, bootNext]
  rw [placedParts, hreq, Placer.run, List.mem_cons] at hy
  -- the first partition starts behind the boot area, and the others behind the first
  rcases hy with rfl | hy
  · exact hstart
  · have hnext := (placer c hr.kbAlign_nonneg).start_le_next 0 x
    have hlater := (Placer.run_bounds _ hy).1
    have hx : (placer c hr.kbAlign_nonneg).start 0 x = partStart c 0 x.1 := rfl
    omega

/-- In a sound table no partition is the 128th, and all start behind the boot partition. -/
theorem Sound.placed {c : Cfg} {parts : List PartInfo} {hr : InRange c parts} (h : Sound c parts)
    {y : Placer.Placed (PartInfo × Nat)} (hy : y ∈ placedParts hr) :
    33 ≤ c.sectors ∧ y.item.2 ≠ 127 ∧ bootNext c ≤ y.start := by
  have hitem := item_mem hy
  obtain ⟨-, hcases⟩ := h
  cases hreq : requested parts with
  | nil =>
    rw [hreq] at hitem
    cases hitem
  | cons x l =>
    rw [hreq] at hcases hitem
    exact ⟨hcases.1, hcases.2.1 _ hitem, bootNext_le_start hreq hcases.2.2 hy⟩

/-- A partition ends on the disk. -/
private theorem next_le_disk {c : Cfg} {parts : List PartInfo} {hr : InRange c parts}
    {y : Placer.Placed (PartInfo × Nat)} (hy : y ∈ placedParts hr) :
    y.next + c.sectors ≤ diskSectors c hr.kbAlign_nonneg parts :=
  Nat.add_le_add_right (Placer.run_bounds _ hy).2 c.sectors

/-- The boot partition of a sound table is usable. -/
theorem Sound.boot_le {c : Cfg} {parts : List PartInfo} (hr : InRange c parts)
    (h : Sound c parts) :
    bootNext c - 1 ≤ lastUsable (diskSectors c hr.kbAlign_nonneg parts) := by
  have hboot := bootNext_lt (c := c)
  have hdisk := hr.disk_lt
  cases hreq : requested parts with
  | nil =>
    have hsectors : c.sectors ≤ 33 := by
      have hcases := h.2
      rw [hreq] at hcases
      exact hcases
    rw [diskSectors, hreq, Placer.stop, Nat.zero_add, lastUsable, if_neg (by omega)]
    omega
  | cons x l =>
    -- the first partition starts behind the boot partition
    obtain ⟨y, hy, -⟩ := exists_placed hr (y := x) (by rw [hreq]; exact List.mem_cons_self)
    obtain ⟨hsectors, -, hstart⟩ := h.placed hy
    have hnext := next_le_disk hy
    have hsize := size_le hy
    have hge := h.1
    rw [lastUsable, if_pos (by omega)]
    omega

/-- Under the condition the table is valid. -/
theorem valid_of_sound {c : Cfg} {parts : List PartInfo} {hr : InRange c parts} {guid : Guid}
    {m : Mem} (t : Table hr guid m) (h : Sound c parts) : GptValid c parts m := by
  have hboot := h.1
  have hdisk := hr.disk_lt
  -- A partition starts behind the boot partition and ends on the disk.
  have hpart : ∀ x ∈ placedParts hr, entryStart m x.item.2 = x.start ∧
      entryEnd m x.item.2 = x.next - 1 ∧ bootNext c ≤ x.start ∧ x.start < x.next := by
    intro x hx
    obtain ⟨-, hi, hstart⟩ := h.placed hx
    have hsize := size_le hx
    exact ⟨t.start x hx hi, t.end x hx hi, hstart, by omega⟩
  refine ⟨?_, ?_, ?_, ?_, ?_, ?_, t.entryCrc, t.crc⟩
  -- in order: starts before ends, inside the usable range
  · intro i hi
    rcases t.used i hi with rfl | ⟨x, hx, rfl, -⟩
    · rw [t.boot_start, t.boot_end]
      omega
    · obtain ⟨hstart, hend, -, hlt⟩ := hpart x hx
      omega
  · intro i hi
    rw [t.firstUsable, t.lastUsable]
    rcases t.used i hi with rfl | ⟨x, hx, rfl, -⟩
    · rw [t.boot_start, t.boot_end]
      exact ⟨Nat.le_refl 34, h.boot_le hr⟩
    · obtain ⟨hstart, hend, hle, hlt⟩ := hpart x hx
      have hsectors := (h.placed hx).1
      have hnext := next_le_disk hx
      rw [hstart, hend, lastUsable, if_pos (by omega)]
      omega
  -- the boot partition ends before the first partition, and the placed runs are disjoint
  · intro i j hi hj hne
    rcases t.used i hi with rfl | ⟨x, hx, rfl, -⟩
    · rcases t.used j hj with rfl | ⟨y, hy, rfl, -⟩
      · exact absurd rfl hne
      · obtain ⟨hstart, -, hle, -⟩ := hpart y hy
        rw [t.boot_end]
        omega
    · obtain ⟨hstart, hend, hle, hlt⟩ := hpart x hx
      rcases t.used j hj with rfl | ⟨y, hy, rfl, -⟩
      · rw [t.boot_end]
        omega
      · obtain ⟨hstart', hend', -, hlt'⟩ := hpart y hy
        have hdisj := Placer.run_disjoint _ hx hy fun heq => hne (congrArg Prod.snd heq)
        omega
  · intro i j hi hj hne heq
    rw [t.guid i hi, t.guid j hj] at heq
    exact hne (bump_inj hi.1 hj.1 heq)
  -- a partition of the request has its own entry, that of the boot partition excepted
  · intro i p hget hsize
    obtain ⟨x, hx, hitem⟩ := exists_placed hr (mem_requested (x := (p, i)).mpr ⟨hget, hsize⟩)
    have hi : x.item.2 ≠ 127 := (h.placed hx).2.1
    have htype := t.type x hx hi
    obtain ⟨hstart, hend, -, hlt⟩ := hpart x hx
    have hle : x.start + 2 * p.size.toNat ≤ x.next := by
      have hsize := (size_le hx).2
      rwa [hitem] at hsize
    simp only [hitem] at htype hstart hend
    exact ⟨htype, by omega⟩
  · refine ⟨127, ⟨by decide, ?_⟩, t.boot_type⟩
    rw [t.boot_type]
    decide

/-- A valid table meets the condition. -/
theorem sound_of_valid {c : Cfg} {parts : List PartInfo} {hr : InRange c parts} {guid : Guid}
    {m : Mem} (t : Table hr guid m) (h : GptValid c parts m) : Sound c parts := by
  -- the boot entry is always in use, so its order and bounds are among the conditions
  have hused : Used m 127 := by
    refine ⟨by decide, ?_⟩
    rw [t.boot_type]
    decide
  have hboot : 34 ≤ bootNext c - 1 := by
    have hle := h.start_le_end 127 hused
    rwa [t.boot_start, t.boot_end] at hle
  have hlast : bootNext c - 1 ≤ lastUsable (diskSectors c hr.kbAlign_nonneg parts) := by
    have hle := (h.usable 127 hused).2
    rwa [t.boot_end, t.lastUsable] at hle
  refine ⟨by omega, ?_⟩
  cases hreq : requested parts with
  | nil =>
    show c.sectors ≤ 33
    rw [diskSectors, hreq, Placer.stop, Nat.zero_add, lastUsable] at hlast
    have hle := le_bootNext hr.toExact
    by_contra hgt
    rw [if_pos (by omega)] at hlast
    omega
  | cons x l =>
    -- The entry of partition 128 is the boot partition's.
    have hnot : ∀ y ∈ x :: l, y.2 ≠ 127 := by
      intro y hy hi
      rw [← hreq, mem_requested, hi] at hy
      have htype := (h.kept 127 y.1 hy.1 hy.2).1
      rw [t.boot_type, partType] at htype
      split at htype <;> exact absurd htype (by decide)
    -- a placed partition has an entry in use and is bound by the usable range
    have hplaced : ∀ z ∈ placedParts hr, z.item.2 ≠ 127 ∧ Used m z.item.2 := by
      intro z hz
      have hi : z.item.2 ≠ 127 := by
        apply hnot
        rw [← hreq]
        exact item_mem hz
      refine ⟨hi, t.lt z hz, ?_⟩
      rw [t.type z hz hi, partType]
      split <;> decide
    have husable : ∀ z ∈ placedParts hr, 34 ≤ z.start ∧
        z.next - 1 ≤ lastUsable (diskSectors c hr.kbAlign_nonneg parts) := by
      intro z hz
      obtain ⟨hi, hu⟩ := hplaced z hz
      have hle := h.usable _ hu
      rwa [t.firstUsable, t.lastUsable, t.start z hz hi, t.end z hz hi] at hle
    refine ⟨?_, hnot, ?_⟩
    · -- The last partition ends one track in front of the end of the disk.
      obtain ⟨z, hz, hnext⟩ := (placer c hr.kbAlign_nonneg).exists_next_eq_stop 0 x l
      rw [← hreq] at hz hnext
      obtain ⟨hstart, hend⟩ := husable z hz
      have hsize := size_le (show z ∈ placedParts hr from hz)
      rw [diskSectors, ← hnext, lastUsable, if_pos (by omega)] at hend
      omega
    · by_cases h0 : x.1.start = 0
      · exact Or.inl h0
      · apply Or.inr
        obtain ⟨z, hz, hitem⟩ := exists_placed hr (y := x) (by rw [hreq]; exact List.mem_cons_self)
        obtain ⟨hi, hu⟩ := hplaced z hz
        obtain ⟨hstart, -⟩ := husable z hz
        have hsize := size_le hz
        have hasked := t.asked z hz (by rwa [hitem])
        rw [hitem] at hasked
        have hdisj := h.disjoint 127 _ hused hu hi.symm
        rw [t.boot_start, t.boot_end, t.start z hz hi, t.end z hz hi] at hdisj
        omega

/-- The generator writes a valid table if the table is sound and no sector number wraps around,
and for sector numbers that do not wrap around only if it is sound. -/
theorem genGptable_valid_iff (c : Cfg) (signature : UInt32) (guid : Guid) (active : UInt8)
    (parts : List PartInfo) (m : Mem) (hlen : parts.length ≤ gptEntryMax)
    (h : genGptable c signature guid active parts = some m) :
    (InRange c parts ∧ Sound c parts → GptValid c parts m) ∧
      (InRange c parts → GptValid c parts m → Sound c parts) := by
  constructor
  · intro hcond
    exact valid_of_sound (genGptable_table hlen h hcond.1) hcond.2
  · intro hr hvalid
    exact sound_of_valid (genGptable_table hlen h hr) hvalid

private theorem smallHeads_pos : 0 < 4 := by decide

private theorem smallSectors_pos : 0 < 32 := by decide

/-- Four heads and 32 sectors. -/
abbrev smallDisk : Cfg where
  endian := .little
  heads := 4
  sectors := 32
  kbAlign := 0
  active := 1
  ignoreNullSizedPartition := false
  heads_pos := smallHeads_pos
  sectors_pos := smallSectors_pos
  heads_lt := by decide
  sectors_lt := by decide
  kbAlign_ge := by decide
  kbAlign_lt := by decide

private theorem usualDisk_heads : 0 < 16 := by decide

/-- 16 heads and 63 sectors, aligned to 256 KiB. -/
abbrev usualDisk : Cfg where
  endian := .little
  heads := 16
  sectors := 63
  kbAlign := 512
  active := 1
  ignoreNullSizedPartition := false
  heads_pos := usualDisk_heads
  sectors_pos := by decide
  heads_lt := by decide
  sectors_lt := by decide
  kbAlign_ge := by decide
  kbAlign_lt := by decide

abbrev onePart (size : UInt64) : List PartInfo := [{ start := 0, size := size, type := 0x83 }]

abbrev sampleGuid : Guid := guidInit 0x5452574F 0x2211 0x4433 0x55 0x66 0x77 0x88 0x99 0xAA 0xBB 0

/-- A megabyte on a disk with an alignment: the boot partition and the partition fit. -/
theorem genGptable_valid_usual : ∃ m,
    genGptable usualDisk 0 sampleGuid 0 (onePart 1024) = some m ∧
      GptValid usualDisk (onePart 1024) m := by
  have hsome : (genGptable usualDisk 0 sampleGuid 0 (onePart 1024)).isSome := by decide
  obtain ⟨m, hm⟩ := Option.isSome_iff_exists.mp hsome
  have hrange : InRange usualDisk (onePart 1024) := ⟨⟨by decide, by decide⟩, by decide⟩
  have hsound : Sound usualDisk (onePart 1024) :=
    ⟨by decide, And.intro (by decide) (And.intro (by decide) (Or.inl rfl))⟩
  exact ⟨m, hm, (genGptable_valid_iff usualDisk 0 sampleGuid 0 (onePart 1024) m (by decide) hm).1
    ⟨hrange, hsound⟩⟩

/-- With 32 sectors to a track the boot partition would end in front of its start. -/
theorem genGptable_invalid_small : ∃ m,
    genGptable smallDisk 0 sampleGuid 0 (onePart 1) = some m ∧
      ¬ GptValid smallDisk (onePart 1) m := by
  have hsome : (genGptable smallDisk 0 sampleGuid 0 (onePart 1)).isSome := by decide
  obtain ⟨m, hm⟩ := Option.isSome_iff_exists.mp hsome
  have hrange : InRange smallDisk (onePart 1) := ⟨⟨by decide, by decide⟩, by decide⟩
  refine ⟨m, hm, fun hvalid => ?_⟩
  have hsound := sound_of_valid (genGptable_table (by decide) hm hrange) hvalid
  exact absurd hsound.1 (by decide)

end HandsomeMod.Native.Ptgen
