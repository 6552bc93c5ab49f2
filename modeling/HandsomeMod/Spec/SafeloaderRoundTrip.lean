import HandsomeMod.Spec.SafeloaderImage

/-!
# The round trip of safeloader images

Reading the partition table of a factory image, extracting its partitions, and reading the flash
layout from its partition-table partition.
-/

namespace HandsomeMod.Native.Safeloader

open ForStd

/-! ### The image -/

/-- The image is as long as its header and its partitions, and holds what was put. -/
theorem generateFactoryImage_put {md5 : List UInt8 → Vector UInt8 16} {info : DeviceInfo}
    {parts : List ImagePartitionEntry} {image : File}
    (h : generateFactoryImage md5 info parts = some image) :
    image.size = firmwareOffset + tableSize + totalSize parts ∧
      ∃ m m', Put firmwareOffset 0 tableSize parts m m' ∧ ∀ i, 0x14 ≤ i → image.mem i = m' i := by
  rw [generateFactoryImage] at h
  obtain ⟨m', hput, rfl⟩ := Option.map_eq_some_iff.mp h
  refine ⟨rfl, _, m', putPartitions_put hput (by decide) (Nat.le_refl _), ?_⟩
  intro i hi
  apply writeBytes_of_le
  rw [Vector.length_toList]
  exact hi

section

variable {md5 : List UInt8 → Vector UInt8 16} {info : DeviceInfo}
  {parts : List ImagePartitionEntry} {image : File}
  (h : generateFactoryImage md5 info parts = some image)

include h

/-- The image has its table. -/
theorem image_text (hparts : parts ≠ []) :
    (imageText tableSize parts).length < tableSize ∧
      bytesAt image.mem firmwareOffset ((imageText tableSize parts).length + 1) =
        imageText tableSize parts ++ [0] := by
  obtain ⟨-, m, m', hput, hsame⟩ := generateFactoryImage_put h
  obtain ⟨hfits, hbytes⟩ := hput.text hparts
  rw [Nat.zero_add] at hfits
  refine ⟨hfits, ?_⟩
  rw [bytesAt_congr fun i _ => hsame (firmwareOffset + i) (by rw [firmwareOffset]; omega)]
  exact hbytes

/-- The image has the data of its partitions. -/
theorem image_data {k : Nat} {part : ImagePartitionEntry} (hk : parts[k]? = some part) :
    bytesAt image.mem (firmwareOffset + baseOf tableSize parts k) part.data.length = part.data := by
  obtain ⟨-, m, m', hput, hsame⟩ := generateFactoryImage_put h
  rw [bytesAt_congr fun i _ => hsame (firmwareOffset + baseOf tableSize parts k + i)
    (by rw [firmwareOffset]; omega)]
  exact hput.data k part hk

end

/-- A partition and what is behind it end with the image. -/
theorem baseOf_add_le {parts : List ImagePartitionEntry} {k : Nat} {part : ImagePartitionEntry}
    (hk : parts[k]? = some part) : baseOf tableSize parts k + part.data.length +
      totalSize (parts.drop (k + 1)) = tableSize + totalSize parts := by
  have hsplit : parts = parts.take k ++ part :: parts.drop (k + 1) := by
    obtain ⟨hlt, hget⟩ := List.getElem?_eq_some_iff.mp hk
    rw [← hget, List.cons_getElem_drop_succ, List.take_append_drop]
  have htotal : totalSize parts =
      totalSize (parts.take k) + (part.data.length + totalSize (parts.drop (k + 1))) := by
    conv_lhs => rw [hsplit]
    rw [totalSize, List.map_append, List.sum_append, ← totalSize_cons, totalSize, totalSize]
  rw [baseOf, htotal]
  omega

/-! ### Extraction -/

/-- A partition is copied in pieces. -/
private theorem writeLoop_eq {file : File} {pos size fuel offset : Nat} (out : List UInt8)
    (hsize : pos + size ≤ file.size) (hoffset : offset ≤ size)
    (hfuel : size - offset < 4096 * fuel) :
    writeLoop file pos size fuel offset out =
      some (out ++ bytesAt file.mem (pos + offset) (size - offset)) := by
  induction fuel generalizing offset out with
  | zero => omega
  | succ fuel ih =>
    rw [writeLoop]
    by_cases hblock : 4096 + offset ≤ size
    · -- A whole block, and by induction what is behind it.
      have hsplit : size - offset = 4096 + (size - (offset + 4096)) := by omega
      simp only [if_pos hblock]
      rw [if_neg (by decide), if_neg (by omega), ih _ (by omega) (by omega), hsplit, bytesAt_add,
        List.append_assoc, Nat.add_assoc]
    · simp only [if_neg hblock]
      split
      -- nothing is left, or less than a block
      · next h0 =>
        rw [h0]
        exact congrArg some (List.append_nil out).symm
      · next hpos => rw [if_neg (by omega)]

/-- Extraction returns the bytes of the partition. -/
theorem extractFirmwarePartition_eq {file : File} {offset : Nat} {entry : FlashPartitionEntry}
    (hsize : entry.base.toNat + offset + entry.size.toNat ≤ file.size) :
    extractFirmwarePartition file offset entry =
      some (bytesAt file.mem (entry.base.toNat + offset) entry.size.toNat) := by
  have hfuel := Nat.lt_mul_div_succ entry.size.toNat (show 0 < 4096 by decide)
  rw [extractFirmwarePartition, writeLoop_eq _ hsize (Nat.zero_le _) (by omega)]
  rfl

/-! ### The flash layout -/

/-- A partition-table partition holds the text of the layout behind four bytes. -/
theorem makePartitionTable_text {heap : Mem} {p : List FlashPartitionEntry} {data : List UInt8}
    (h : makePartitionTable heap p = some data) (hp : p ≠ []) :
    data.length = tableSize ∧ 4 + (tableText flashhdr [] p).length < tableSize ∧
      (data.drop 4).take ((tableText flashhdr [] p).length + 1) = tableText flashhdr [] p ++ [0] := by
  rw [makePartitionTable] at h
  cases hlines : flashLines (writeBytes heap 0 [0x00, 0x04, 0x00, 0x00]) 4 p with
  | none =>
    rw [hlines] at h
    cases h
  | some r =>
    rw [hlines] at h
    obtain ⟨hs, -, htext⟩ := flashLines_eq hlines
    obtain ⟨hfits, hbytes⟩ := htext hp
    rw [← Option.some.inj h]
    refine ⟨length_bytesAt _ _ _, hfits, ?_⟩
    rw [← bytesAt_sub rfl (by omega), Nat.zero_add]
    -- The padding starts behind the zero byte.
    rw [bytesAt_writeBytes_before _ _ (by omega), ← Nat.zero_add 4]
    exact hbytes

/-! ### The round trip -/

/-- What is read of an image is what it was built from. -/
theorem factoryImage_read {md5 : List UInt8 → Vector UInt8 16} {info : DeviceInfo}
    {parts : List ImagePartitionEntry} {image : File} {maxEntries : Nat}
    (h : generateFactoryImage md5 info parts = some image) (hparts : parts ≠ [])
    (hnames : ∀ part ∈ parts, GoodName part.name) (hroom : parts.length ≤ maxEntries) :
    readPartitionTable image firmwareOffset maxEntries 0 = some (0, written tableSize parts) ∧
    (∀ k part, parts[k]? = some part → baseOf tableSize parts k < 2 ^ 32 →
      ∃ e, (written tableSize parts)[k]? = some e ∧ e.name = part.name ∧
        extractFirmwarePartition image firmwareOffset e = some part.data) ∧
    ∀ k part heap layout maxEntries, parts[k]? = some part →
      makePartitionTable heap layout = some part.data → layout ≠ [] →
      (∀ e ∈ layout, GoodName e.name) → layout.length ≤ maxEntries →
      4 ≤ totalSize (parts.drop (k + 1)) →
      readPartitionTable image (firmwareOffset + baseOf tableSize parts k + 4) maxEntries 1 =
        some (0, layout) := by
  obtain ⟨hsize, m, m', hput, -⟩ := generateFactoryImage_put h
  have htable : tableSize = 2048 := rfl
  refine ⟨?_, ?_, ?_⟩
  -- the table is read back from its text
  · obtain ⟨hfits, htext⟩ := image_text h hparts
    have hwritten : written tableSize parts ≠ [] := by
      intro hnil
      have hlen := length_written tableSize parts
      rw [hnil] at hlen
      exact hparts (List.length_eq_zero_iff.mp hlen.symm)
    apply readPartitionTable_eq fwup_format rfl (by omega) hwritten _ _ hfits htext
    · intro e he
      obtain ⟨part, hpart, hname⟩ := name_of_mem_written he
      rw [hname]
      exact hnames part hpart
    · rw [length_written]
      exact hroom
  -- an entry leads to the data of its partition, as long as its base is not cut off
  · intro k part hk hbase
    refine ⟨_, getElem?_written hk, rfl, ?_⟩
    have hend := baseOf_add_le hk
    have hlt := hput.size_lt part (List.mem_of_getElem? hk)
    have hbase' : (UInt32.ofNat (baseOf tableSize parts k)).toNat = baseOf tableSize parts k := by
      rw [UInt32.toNat_ofNat']
      exact Nat.mod_eq_of_lt hbase
    have hsize' : (UInt32.ofNat part.data.length).toNat = part.data.length := by
      rw [UInt32.toNat_ofNat']
      exact Nat.mod_eq_of_lt hlt
    rw [extractFirmwarePartition_eq (by rw [hbase', hsize']; omega), hbase', hsize',
      Nat.add_comm _ firmwareOffset, image_data h hk]
  -- a partition table among the data is read in the same way, at its place in the image
  · intro k part heap layout maxEntries hk hmake hlayout hgood hroom' hbehind
    obtain ⟨hlen, hfits, htext⟩ := makePartitionTable_text hmake hlayout
    have hend := baseOf_add_le hk
    have hdata := image_data h hk
    apply readPartitionTable_eq flash_format rfl (by omega) hlayout hgood hroom' (by omega)
    rw [bytesAt_sub hdata (by omega)]
    exact htext

/-! ### When an image is accepted -/

/-- A number has eight digits at most. -/
private theorem length_hexText_le (w : Nat) (v : UInt32) : (hexText w v).length ≤ 8 := by
  have hdrop := (List.dropWhile_sublist (· == 0) (l := (hexDigits v).take (8 - w))).length_le
  rw [List.length_take, length_hexDigits] at hdrop
  rw [hexText, List.length_map, List.length_append, List.length_drop, length_hexDigits]
  omega

/-- A line is little longer than its name. -/
private theorem length_fwupLine_le (name : List UInt8) (base size : UInt32) :
    (fwupLine name base size).length ≤ name.length + 44 := by
  have hbase := length_hexText_le 5 base
  have hsize := length_hexText_le 5 size
  have h₁ : fwuphdr.length = 8 := by decide
  have h₂ : (ascii " ").length = 1 := by decide
  have h₃ : (ascii " base 0x").length = 8 := by decide
  have h₄ : (ascii " size 0x").length = 8 := by decide
  have h₅ : (ascii "\t\x0d\n").length = 3 := by decide
  rw [fwupLine, formatEntry]
  simp only [List.length_append]
  omega

/-- Partitions of the flash layout that are not too big are accepted if their lines fit. -/
private theorem putPartitions_isSome {flashParts : List FlashPartitionEntry}
    {buffer imagePt base : Nat}
    {parts : List ImagePartitionEntry} {m : Mem}
    (hfind : ∀ part ∈ parts, ∃ e, (flashParts.find? fun e => e.name = part.name) = some e ∧
      part.data.length ≤ e.size.toNat)
    (hfits : imagePt + (parts.map fun part => part.name.length + 44).sum < tableSize) :
    (putPartitions flashParts buffer parts imagePt base m).isSome := by
  induction parts generalizing imagePt base m with
  | nil => rfl
  | cons part parts ih =>
    obtain ⟨e, he, hle⟩ := hfind part List.mem_cons_self
    have hline := length_fwupLine_le part.name (UInt32.ofNat base) (UInt32.ofNat part.data.length)
    rw [List.map_cons, List.sum_cons] at hfits
    rw [putPartitions, he]
    simp only
    rw [if_neg (by omega), putLine, if_neg (by omega)]
    exact ih (fun q hq => hfind q (List.mem_cons_of_mem _ hq)) (by omega)

/-- An image is made of partitions that fit. -/
private theorem generateFactoryImage_isSome {md5 : List UInt8 → Vector UInt8 16} {info : DeviceInfo}
    {parts : List ImagePartitionEntry}
    (hfind : ∀ part ∈ parts, ∃ e, (info.partitions.find? fun e => e.name = part.name) = some e ∧
      part.data.length ≤ e.size.toNat)
    (hfits : (parts.map fun part => part.name.length + 44).sum < tableSize) :
    (generateFactoryImage md5 info parts).isSome := by
  rw [generateFactoryImage, Option.isSome_map]
  exact putPartitions_isSome hfind (by omega)

/-! ### Samples -/

instance (name : List UInt8) : Decidable (GoodName name) :=
  decidable_of_iff
    ((∀ b ∈ name, b ≠ 0) ∧ (∀ b ∈ name, b ≠ 0x20) ∧ (∀ b ∈ name, b ≠ 0x0a) ∧ name.length ≤ 31)
    ⟨fun h => ⟨h.1, h.2.1, h.2.2.1, h.2.2.2⟩,
      fun h => ⟨h.ne_zero, h.ne_space, h.ne_newline, h.length_le⟩⟩

abbrev sampleLayout : List FlashPartitionEntry :=
  [⟨ascii "os-image", 0x1000, 0x2000⟩, ⟨ascii "partition-table", 0x0, 0x800⟩]

/-- A partition table and a small kernel. -/
abbrev sampleParts (table : List UInt8) : List ImagePartitionEntry :=
  [⟨ascii "partition-table", table⟩, ⟨ascii "os-image", [1, 2, 3, 4]⟩]

/-- The MD5 digest of the sample image. -/
abbrev sampleMd5 : List UInt8 → Vector UInt8 16 := fun _ => #v[0x02, 0xf7, 0xcf, 0xa2, 0xc6, 0xa8,
  0x7f, 0x1f, 0xf9, 0x92, 0xcd, 0xdb, 0xa9, 0x17, 0xee, 0x94]

/-- The partition table fills its size. -/
theorem makePartitionTable_length {heap : Mem} {p : List FlashPartitionEntry} {data : List UInt8}
    (h : makePartitionTable heap p = some data) : data.length = tableSize := by
  rw [makePartitionTable] at h
  split at h
  · cases h
  · rw [← Option.some.inj h]
    exact length_bytesAt _ _ _

private theorem sample_fits {table : List UInt8} (hlen : table.length = tableSize) :
    ∀ part ∈ sampleParts table, ∃ e, (sampleLayout.find? fun e => e.name = part.name) = some e ∧
      part.data.length ≤ e.size.toNat := by
  have htable : (sampleLayout.find? fun e => e.name = ascii "partition-table") =
      some ⟨ascii "partition-table", 0x0, 0x800⟩ := by decide
  have hkernel : (sampleLayout.find? fun e => e.name = ascii "os-image") =
      some ⟨ascii "os-image", 0x1000, 0x2000⟩ := by decide
  intro part hpart
  rcases List.mem_cons.mp hpart with rfl | hpart
  · exact ⟨_, htable, hlen.le⟩
  · obtain rfl := List.mem_singleton.mp hpart
    exact ⟨_, hkernel, by decide⟩

/-- The partitions of the examples fit. -/
private theorem sample_accepted {table : List UInt8} (hlen : table.length = tableSize) :
    (generateFactoryImage sampleMd5 ⟨none, sampleLayout⟩ (sampleParts table)).isSome := by
  have hfits : (ascii "partition-table").length + 44 + ((ascii "os-image").length + 44 + 0)
      < tableSize := by decide
  apply generateFactoryImage_isSome
  · exact sample_fits hlen
  · exact hfits

/-- An image with a partition table and a kernel is read back. -/
theorem factoryImage_read_sample : ∃ table image,
    makePartitionTable (fun _ => 0) sampleLayout = some table ∧
    generateFactoryImage sampleMd5 ⟨none, sampleLayout⟩ (sampleParts table) = some image ∧
    readPartitionTable image firmwareOffset 16 0 =
      some (0, written tableSize (sampleParts table)) ∧
    (∃ e, (written tableSize (sampleParts table))[1]? = some e ∧ e.name = ascii "os-image" ∧
      extractFirmwarePartition image firmwareOffset e = some [1, 2, 3, 4]) ∧
    readPartitionTable image (firmwareOffset + baseOf tableSize (sampleParts table) 0 + 4) 32 1 =
      some (0, sampleLayout) := by
  have hsome : (makePartitionTable (fun _ => 0) sampleLayout).isSome := by decide
  obtain ⟨table, htable⟩ := Option.isSome_iff_exists.mp hsome
  have hlen := makePartitionTable_length htable
  obtain ⟨image, himage⟩ := Option.isSome_iff_exists.mp (sample_accepted hlen)
  have hnames : ∀ part ∈ sampleParts table, GoodName part.name := by
    intro part hpart
    rcases List.mem_cons.mp hpart with rfl | hpart
    · show GoodName (ascii "partition-table")
      set_option maxRecDepth 8000 in decide
    · obtain rfl := List.mem_singleton.mp hpart
      show GoodName (ascii "os-image")
      set_option maxRecDepth 8000 in decide
  have hbase : baseOf tableSize (sampleParts table) 1 < 2 ^ 32 := by
    show tableSize + (table.length + 0) < 2 ^ 32
    rw [hlen]
    decide
  -- the names are words and the bases fit into 32 bits, so the image reads back
  obtain ⟨hread, hextract, hflash⟩ := factoryImage_read himage
    (List.cons_ne_nil _ _) hnames
    (show (sampleParts table).length ≤ 16 by show 2 ≤ 16; decide)
  exact ⟨table, image, htable, himage, hread, hextract 1 _ rfl hbase, hflash 0 _ _ sampleLayout 32 rfl htable
    (List.cons_ne_nil _ _) (by set_option maxRecDepth 8000 in decide) (by decide)
    (by show 4 ≤ 4 + 0; decide)⟩

/-! ### Where the round trip fails -/

/-- A buffer that does not start with the header. -/
theorem readPartitionTable_other {file : File} {offset maxEntries type : Nat} {b : UInt8}
    {hdr : List UInt8}
    (htype : (if type = 0 then some fwuphdr else if type = 1 then some flashhdr else none) =
      some (b :: hdr)) (hsize : offset + 2048 ≤ file.size) (hb : file.mem offset ≠ b) :
    readPartitionTable file offset maxEntries type = some (1, []) := by
  have hbuf : (bytesAt file.mem offset 2048).set 2047 0 = file.mem offset ::
      (bytesAt file.mem (offset + 1) 2047).set 2046 0 := by
    have hone : bytesAt file.mem offset 1 = [file.mem offset] := rfl
    rw [show 2048 = 1 + 2047 from rfl, bytesAt_add, hone, List.singleton_append,
      List.set_cons_succ]
  simp only [readPartitionTable, htype, hbuf]
  rw [if_neg (by omega), if_pos]
  rw [List.length_cons, List.take_succ_cons]
  intro heq
  exact hb (List.head_eq_of_cons_eq heq)

/-- A partition at `2 ^ 32` is extracted from the start of the table. -/
private theorem extract_wrapped {md5 : List UInt8 → Vector UInt8 16} {info : DeviceInfo}
    {parts : List ImagePartitionEntry} {image : File}
    (h : generateFactoryImage md5 info parts = some image) {k : Nat} {part : ImagePartitionEntry}
    (hk : parts[k]? = some part) (hbase : baseOf tableSize parts k = 2 ^ 32)
    (hlen : part.data.length = 1) : ∃ e, (written tableSize parts)[k]? = some e ∧
      extractFirmwarePartition image firmwareOffset e = some [0x66] := by
  refine ⟨_, getElem?_written hk, ?_⟩
  obtain ⟨hsize, -⟩ := generateFactoryImage_put h
  have hparts : parts ≠ [] := by
    intro hnil
    rw [hnil] at hk
    cases hk
  obtain ⟨-, htext⟩ := image_text h hparts
  have hwritten : written tableSize parts ≠ [] := by
    intro hnil
    have hlen := length_written tableSize parts
    rw [hnil] at hlen
    exact hparts (List.length_eq_zero_iff.mp hlen.symm)
  -- the image starts with the first byte of the table's text
  have hfirst : bytesAt image.mem firmwareOffset 1 = [0x66] := by
    have hhdr : (imageText tableSize parts ++ [0]).take fwuphdr.length = fwuphdr :=
      take_tableText [0] hwritten
    have hlen' := congrArg List.length hhdr
    rw [List.length_take, List.length_append, List.length_singleton] at hlen'
    have hread := bytesAt_take htext (n := fwuphdr.length) (by omega)
    rw [hhdr] at hread
    exact bytesAt_take hread (by decide)
  -- the base is cut off to 0, which is the table itself
  have hbase' : UInt32.ofNat (baseOf tableSize parts k) = 0 := by
    rw [hbase]
    rfl
  rw [hbase', hlen, extractFirmwarePartition_eq]
  · exact congrArg some hfirst
  · show 0 + firmwareOffset + 1 ≤ image.size
    rw [hsize]
    have htable : tableSize = 2048 := rfl
    omega

/-- A layout without partitions leaves a byte of the heap where the text would start. -/
private theorem empty_layout : ∃ table image, makePartitionTable (fun _ => 0) [] = some table ∧
    generateFactoryImage sampleMd5 ⟨none, sampleLayout⟩ (sampleParts table) = some image ∧
    readPartitionTable image (firmwareOffset + baseOf tableSize (sampleParts table) 0 + 4) 32 1 =
      some (1, []) := by
  have hsome : (makePartitionTable (fun _ => 0) []).isSome := rfl
  obtain ⟨table, htable⟩ := Option.isSome_iff_exists.mp hsome
  have hlen := makePartitionTable_length htable
  obtain ⟨image, himage⟩ := Option.isSome_iff_exists.mp (sample_accepted hlen)
  -- behind the length there is no `partition` but the end of the text
  have hbyte : (makePartitionTable (fun _ => 0) []).map (·.getD 4 0) = some 0 := by
    set_option maxRecDepth 8000 in decide
  rw [htable] at hbyte
  have hzero : table.getD 4 0 = 0 := Option.some.inj hbyte
  refine ⟨table, image, htable, himage, readPartitionTable_other rfl ?_ ?_⟩
  · rw [(generateFactoryImage_put himage).1]
    show firmwareOffset + (tableSize + 0) + 4 + 2048 ≤
      firmwareOffset + tableSize + (table.length + (4 + 0))
    rw [hlen]
    decide
  · have hdata := image_data himage (k := 0) rfl
    have hread := getD_bytesAt image.mem
      (firmwareOffset + baseOf tableSize (sampleParts table) 0) (show 4 < table.length by
        rw [hlen]; decide)
    rw [hdata] at hread
    rw [← hread]
    show table.getD 4 0 ≠ _
    rw [hzero]
    decide

/-- Four bytes are missing behind a partition table at the end of the image. -/
private theorem table_at_end : ∃ table image,
    makePartitionTable (fun _ => 0) sampleLayout = some table ∧
    generateFactoryImage sampleMd5 ⟨none, sampleLayout⟩ [⟨ascii "partition-table", table⟩] =
      some image ∧
    readPartitionTable image (firmwareOffset + tableSize + 4) 32 1 = none := by
  have hsome : (makePartitionTable (fun _ => 0) sampleLayout).isSome := by decide
  obtain ⟨table, htable⟩ := Option.isSome_iff_exists.mp hsome
  have hlen := makePartitionTable_length htable
  -- the table alone is an image of its own
  have haccepted : (generateFactoryImage sampleMd5 ⟨none, sampleLayout⟩
      [⟨ascii "partition-table", table⟩]).isSome := by
    have hfits : (ascii "partition-table").length + 44 + 0 < tableSize := by decide
    apply generateFactoryImage_isSome
    · intro part hpart
      apply sample_fits hlen part
      obtain rfl := List.mem_singleton.mp hpart
      exact List.mem_cons_self
    · exact hfits
  obtain ⟨image, himage⟩ := Option.isSome_iff_exists.mp haccepted
  refine ⟨table, image, htable, himage, ?_⟩
  have hsize : image.size < firmwareOffset + tableSize + 4 + 2048 := by
    rw [(generateFactoryImage_put himage).1]
    show firmwareOffset + tableSize + (table.length + 0) < firmwareOffset + tableSize + 4 + 2048
    rw [hlen]
    decide
  exact if_pos hsize

/-- A layout with a partition of almost 4 GiB. -/
abbrev hugeLayout : List FlashPartitionEntry :=
  [⟨ascii "a", 0, 0xffffffff⟩, ⟨ascii "b", 0, 1⟩]

/-- A partition of `n` bytes and one byte behind it. -/
abbrev hugeParts (n : Nat) : List ImagePartitionEntry :=
  [⟨ascii "a", List.replicate n 0⟩, ⟨ascii "b", [0]⟩]

/-- The base of a partition is printed as an `unsigned`. -/
private theorem behind_4gib : ∃ image parts e,
    parts.length = 2 ∧ (∀ part ∈ parts, GoodName part.name) ∧ parts[1]? = some ⟨ascii "b", [0]⟩ ∧
    generateFactoryImage sampleMd5 ⟨none, hugeLayout⟩ parts = some image ∧
    (written tableSize parts)[1]? = some e ∧
    extractFirmwarePartition image firmwareOffset e ≠ some [0] := by
  -- the first partition fills the image up to 4 GiB
  obtain ⟨n, hn⟩ := Nat.exists_eq_add_of_le (show tableSize ≤ 2 ^ 32 by decide)
  have htable : tableSize = 2048 := rfl
  have hparts : ∀ part ∈ hugeParts n, GoodName part.name ∧
      ∃ e, (hugeLayout.find? fun e => e.name = part.name) = some e ∧
        part.data.length ≤ e.size.toNat := by
    have ha : GoodName (ascii "a") ∧ (hugeLayout.find? fun e => e.name = ascii "a") =
        some ⟨ascii "a", 0, 0xffffffff⟩ := by set_option maxRecDepth 8000 in decide
    have hb : GoodName (ascii "b") ∧ (hugeLayout.find? fun e => e.name = ascii "b") =
        some ⟨ascii "b", 0, 1⟩ := by set_option maxRecDepth 8000 in decide
    intro part hpart
    rcases List.mem_cons.mp hpart with rfl | hpart
    · refine ⟨ha.1, _, ha.2, ?_⟩
      show (List.replicate n (0 : UInt8)).length ≤ 4294967295
      rw [List.length_replicate]
      omega
    · obtain rfl := List.mem_singleton.mp hpart
      exact ⟨hb.1, _, hb.2, by decide⟩
  have hfits : (ascii "a").length + 44 + ((ascii "b").length + 44 + 0) < tableSize := by
    decide
  have haccepted : (generateFactoryImage sampleMd5 ⟨none, hugeLayout⟩ (hugeParts n)).isSome :=
    generateFactoryImage_isSome (fun part hpart => (hparts part hpart).2) hfits
  obtain ⟨image, himage⟩ := Option.isSome_iff_exists.mp haccepted
  have hbase : baseOf tableSize (hugeParts n) 1 = 2 ^ 32 := by
    show tableSize + ((List.replicate n (0 : UInt8)).length + 0) = 2 ^ 32
    rw [List.length_replicate, hn, Nat.add_zero]
  obtain ⟨e, he, hextract⟩ := extract_wrapped himage (k := 1) rfl hbase rfl
  refine ⟨image, hugeParts n, e, rfl, fun part hpart => (hparts part hpart).1, rfl, himage, he, ?_⟩
  rw [hextract]
  decide

/-- An image without partitions, a name with a newline, a flash layout without partitions, a
partition table at the end of the image, and a partition behind 4 GiB are accepted and not read
back. -/
theorem factoryImage_not_read :
    (∃ image, generateFactoryImage sampleMd5 ⟨none, sampleLayout⟩ [] = some image ∧
      readPartitionTable image firmwareOffset 16 0 = some (1, [])) ∧
    (∃ image, generateFactoryImage sampleMd5 ⟨none, [⟨ascii "a\nb", 0, 0⟩]⟩
        [⟨ascii "a\nb", []⟩] = some image ∧
      readPartitionTable image firmwareOffset 16 0 = none) ∧
    (∃ table image, makePartitionTable (fun _ => 0) [] = some table ∧
      generateFactoryImage sampleMd5 ⟨none, sampleLayout⟩ (sampleParts table) = some image ∧
      readPartitionTable image (firmwareOffset + baseOf tableSize (sampleParts table) 0 + 4) 32 1 =
        some (1, [])) ∧
    (∃ table image, makePartitionTable (fun _ => 0) sampleLayout = some table ∧
      generateFactoryImage sampleMd5 ⟨none, sampleLayout⟩
        [⟨ascii "partition-table", table⟩] = some image ∧
      readPartitionTable image (firmwareOffset + tableSize + 4) 32 1 = none) ∧
    ∃ image parts e, parts.length = 2 ∧ (∀ part ∈ parts, GoodName part.name) ∧
      parts[1]? = some ⟨ascii "b", [0]⟩ ∧
      generateFactoryImage sampleMd5 ⟨none, hugeLayout⟩ parts = some image ∧
      (written tableSize parts)[1]? = some e ∧
      extractFirmwarePartition image firmwareOffset e ≠ some [0] := by
  refine ⟨?_, ?_, empty_layout, table_at_end, behind_4gib⟩
  · exact ⟨_, rfl, readPartitionTable_other rfl (by decide) (by decide)⟩
  · have hsome : (generateFactoryImage sampleMd5 ⟨none, [⟨ascii "a\nb", 0, 0⟩]⟩
        [⟨ascii "a\nb", []⟩]).isSome := by decide
    have hread : ((generateFactoryImage sampleMd5 ⟨none, [⟨ascii "a\nb", 0, 0⟩]⟩
        [⟨ascii "a\nb", []⟩]).bind fun image => readPartitionTable image firmwareOffset 16 0) =
          none := by decide +kernel
    obtain ⟨image, himage⟩ := Option.isSome_iff_exists.mp hsome
    rw [himage] at hread
    exact ⟨image, himage, hread⟩

end HandsomeMod.Native.Safeloader
