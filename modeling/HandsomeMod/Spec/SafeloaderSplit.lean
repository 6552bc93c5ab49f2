import HandsomeMod.ForStd.Align
import HandsomeMod.Native.SafeloaderBuild

/-!
# The split of the firmware partition

When `build_image` divides the firmware partition of a layout into its kernel and its file system,
and when a sysupgrade image of the new layout is written inside its buffer.
-/

namespace HandsomeMod.Native.Safeloader

open ForStd

/-! ### Searches for the last match -/

/-- The last element with a property and its index, in a list whose first index is `i`. -/
def lastMatch {α : Type} (P : α → Prop) [DecidablePred P] :
    List α → Nat → Option (Nat × α) → Option (Nat × α)
  | [], _, found => found
  | x :: xs, i, found => lastMatch P xs (i + 1) (if P x then some (i, x) else found)

section lastMatch

variable {α : Type} {P : α → Prop} [DecidablePred P]

private theorem lastMatch_cons (x : α) (xs : List α) (i : Nat) (found : Option (Nat × α)) :
    lastMatch P (x :: xs) i found =
      lastMatch P xs (i + 1) (if P x then some (i, x) else found) := rfl

/-- Without a match the result is kept. -/
private theorem lastMatch_of_forall_not {l : List α} (h : ∀ x ∈ l, ¬ P x) (i : Nat)
    (found : Option (Nat × α)) : lastMatch P l i found = found := by
  induction l generalizing i with
  | nil => rfl
  | cons x xs ih =>
    rw [lastMatch_cons, if_neg (h x List.mem_cons_self)]
    exact ih (fun y hy => h y (List.mem_cons_of_mem x hy)) (i + 1)

/-- The search goes on behind the first part. -/
private theorem lastMatch_append (l l' : List α) (i : Nat) (found : Option (Nat × α)) :
    lastMatch P (l ++ l') i found = lastMatch P l' (i + l.length) (lastMatch P l i found) := by
  induction l generalizing i found with
  | nil => rfl
  | cons x xs ih =>
    rw [List.cons_append, lastMatch_cons, lastMatch_cons, ih, List.length_cons]
    congr 1
    omega

/-- The match with no match behind it. -/
private theorem lastMatch_eq_some (pre : List α) {x : α} {post : List α} (hx : P x)
    (hpost : ∀ y ∈ post, ¬ P y) (i : Nat) (found : Option (Nat × α)) :
    lastMatch P (pre ++ x :: post) i found = some (i + pre.length, x) := by
  rw [lastMatch_append, lastMatch_cons, if_pos hx, lastMatch_of_forall_not hpost]

/-- What is found is the last match. -/
private theorem exists_of_lastMatch {l : List α} {i j : Nat} {x : α}
    (h : lastMatch P l i none = some (j, x)) :
    ∃ pre post, l = pre ++ x :: post ∧ j = i + pre.length ∧ P x ∧ ∀ y ∈ post, ¬ P y := by
  induction l using List.reverseRecOn with
  | nil => cases h
  | append_singleton l y ih =>
    rw [lastMatch_append, lastMatch_cons, lastMatch] at h
    split at h
    -- the last one matches
    · next hy =>
      obtain ⟨rfl, rfl⟩ := Prod.mk.inj (Option.some.inj h)
      exact ⟨l, [], rfl, rfl, hy, by simp⟩
    -- it does not, so the last match is in front of it
    · next hy =>
      obtain ⟨pre, post, rfl, hj, hx, hpost⟩ := ih h
      refine ⟨pre, post ++ [y], by simp, hj, hx, ?_⟩
      intro z hz
      rcases List.mem_append.mp hz with hz | hz
      · exact hpost z hz
      · rwa [List.mem_singleton.mp hz]

end lastMatch

/-- The index of the last match. -/
private theorem lastIndex_eq (name : List UInt8) (l : List FlashPartitionEntry) (i : Nat)
    (found : Option (Nat × FlashPartitionEntry)) :
    lastIndex name l i (found.map Prod.fst) =
      (lastMatch (fun e => e.name = name) l i found).map Prod.fst := by
  induction l generalizing i found with
  | nil => rfl
  | cons e es ih =>
    rw [lastIndex, lastMatch_cons, ← ih]
    split <;> rfl

/-! ### Slots -/

/-- The slot of an entry. -/
private theorem slots_of_some {l : List FlashPartitionEntry} {i : Nat} {e : FlashPartitionEntry}
    (h : l[i]? = some e) : slots l i = e.slot := by
  rw [slots, h]

/-- Slots of the same entry. -/
private theorem slots_congr {l l' : List FlashPartitionEntry} {i j : Nat} (h : l[i]? = l'[j]?) :
    slots l i = slots l' j := by
  rw [slots, slots, h]

/-- A loop over an array that starts like that of a list sees the list, where the array has a slot
for its end. -/
private theorem entriesFrom_eq {p : Partitions} {l : List FlashPartitionEntry} {left i : Nat}
    (hp : ∀ j, i ≤ j → j < i + left → p j = slots l j) (hi : i ≤ l.length) :
    entriesFrom p left i = if l.length < i + left then some (l.drop i) else none := by
  induction left generalizing i with
  | zero => rw [entriesFrom, if_neg (by omega)]
  | succ left ih =>
    rw [entriesFrom, hp i le_rfl (by omega)]
    rcases Nat.eq_or_lt_of_le hi with rfl | hlt
    · -- the slot behind the last entry
      have hnone : (slots l l.length).name = none := by simp [slots]
      rw [hnone, if_pos (by omega), List.drop_length]
    · have htail := ih (i := i + 1) (fun j hj hlt => hp j (by omega) (by omega)) hlt
      rw [slots_of_some (List.getElem?_eq_getElem hlt), htail,
        show i + 1 + left = i + (left + 1) by omega]
      simp only [FlashPartitionEntry.slot]
      split
      · rw [Option.map_some, List.drop_eq_getElem_cons hlt]
      · rfl

/-- The entries are read back if they are not too many. -/
private theorem entries_eq {p : Partitions} {l : List FlashPartitionEntry}
    (hp : ∀ j ≤ maxPartitions, p j = slots l j) :
    entries p = if l.length ≤ maxPartitions then some l else none := by
  rw [entries, entriesFrom_eq (fun j _ hj => hp j (by omega)) (Nat.zero_le l.length)]
  simp only [Nat.zero_add, Nat.lt_succ_iff, List.drop_zero]

/-- Every slot behind `start` gets what was in front of it. -/
private theorem shiftUp_apply {start : Nat} (hstart : 0 < start) (i j : Nat) (p : Partitions) :
    shiftUp start i p j = if start < j ∧ j ≤ i + 1 then p (j - 1) else p j := by
  induction i generalizing p with
  | zero => rw [shiftUp, if_neg (by omega)]
  | succ i ih =>
    rw [shiftUp]
    by_cases hle : start ≤ i + 1
    · rw [if_pos hle, ih]
      rcases Nat.lt_trichotomy j (i + 1 + 1) with hlt | rfl | hgt
      · -- the slots below are not changed by this move
        rw [Function.update_of_ne (by omega), Function.update_of_ne (by omega)]
        congr 1
        apply propext
        omega
      -- the slot that the move writes
      · rw [if_neg (by omega), if_pos (by omega), Function.update_self]
        rfl
      · rw [if_neg (by omega), if_neg (by omega), Function.update_of_ne (by omega)]
    · rw [if_neg hle, if_neg (by omega)]

/-! ### The split -/

/-- The address behind a partition. -/
def FlashPartitionEntry.stop (e : FlashPartitionEntry) : Nat := e.base.toNat + e.size.toNat

/-- The addresses of a partition. -/
def FlashPartitionEntry.addresses (e : FlashPartitionEntry) : Set Nat :=
  Set.Ico e.base.toNat e.stop

/-- A partition lies inside another. -/
structure FlashPartitionEntry.Inside (e f : FlashPartitionEntry) : Prop where
  base_le : f.base.toNat ≤ e.base.toNat
  stop_le : e.stop ≤ f.stop

/-- What `build_image` puts at the place of the firmware partition. -/
def osImage (firmware : FlashPartitionEntry) (kernelSize : Nat) : FlashPartitionEntry :=
  { name := ascii "os-image", base := firmware.base, size := UInt32.ofNat kernelSize }

/-- What `build_image` puts behind it. -/
def fileSystem (sysupgrade : Bool) (firmware : FlashPartitionEntry) (kernelSize : Nat) :
    FlashPartitionEntry :=
  let base := fileSystemBase sysupgrade firmware.base kernelSize
  { name := ascii "file-system", base := base, size := firmware.size - base }

/-- The slots after the split. -/
private theorem splitFirmware_apply {sysupgrade : Bool} {kernelSize : Nat} {p : Partitions}
    {pre rest : List FlashPartitionEntry} {firmware : FlashPartitionEntry}
    (h : splitFirmware sysupgrade kernelSize (slots (pre ++ firmware :: rest)) pre.length = some p) :
    kernelSize ≤ firmware.size.toNat ∧
      ∀ j ≤ maxPartitions, p j = slots (pre ++ osImage firmware kernelSize ::
        fileSystem sysupgrade firmware kernelSize :: rest) j := by
  have hfirmware : slots (pre ++ firmware :: rest) pre.length = firmware.slot :=
    slots_of_some (by simp)
  simp only [splitFirmware, hfirmware] at h
  split at h
  · cases h
  · next hsize =>
    refine ⟨Nat.le_of_not_lt hsize, fun j hj => ?_⟩
    obtain rfl := Option.some.inj h
    rcases Nat.lt_trichotomy j pre.length with hlt | rfl | hgt
    · -- in front of the firmware partition
      rw [Function.update_of_ne (by omega), Function.update_of_ne (by omega),
        shiftUp_apply (by omega), if_neg (by omega)]
      apply slots_congr
      rw [List.getElem?_append_left hlt, List.getElem?_append_left hlt]
    -- the kernel takes the slot of the firmware
    · rw [Function.update_self, slots_of_some (e := osImage firmware kernelSize) (by simp)]
      rfl
    · rcases Nat.eq_or_lt_of_le (Nat.succ_le_of_lt hgt) with heq | hgt
      · -- the slot that the shift has made free
        subst heq
        rw [Function.update_of_ne (by omega), Function.update_self,
          slots_of_some (e := fileSystem sysupgrade firmware kernelSize) (by simp)]
        rfl
      -- behind it the entries stand one slot later
      · have hj' : j ≤ maxPartitions - 1 + 1 := hj
        rw [Function.update_of_ne (by omega), Function.update_of_ne (by omega),
          shiftUp_apply (by omega), if_pos ⟨hgt, hj'⟩]
        apply slots_congr
        obtain ⟨d, rfl⟩ : ∃ d, j = pre.length + (d + 1 + 1) := ⟨j - pre.length - 2, by omega⟩
        rw [show pre.length + (d + 1 + 1) - 1 = pre.length + (d + 1) by omega,
          List.getElem?_append_right (by omega), List.getElem?_append_right (by omega),
          Nat.add_sub_cancel_left, Nat.add_sub_cancel_left, List.getElem?_cons_succ,
          List.getElem?_cons_succ, List.getElem?_cons_succ]

/-- The firmware partition is found. -/
private theorem lastIndex_firmware {layout : Layout} {pre rest : List FlashPartitionEntry}
    {firmware : FlashPartitionEntry} (hlayout : layout.entries = pre ++ firmware :: rest)
    (hname : firmware.name = ascii "firmware")
    (hlast : ∀ e ∈ rest, e.name ≠ ascii "firmware") :
    lastIndex (ascii "firmware") layout.entries 0 none = some pre.length := by
  have heq := lastIndex_eq (ascii "firmware") layout.entries 0 none
  have hmatch := lastMatch_eq_some (P := fun e : FlashPartitionEntry => e.name = ascii "firmware")
    pre hname hlast 0 none
  rw [hlayout, hmatch, Nat.zero_add] at heq
  rw [hlayout]
  exact heq

/-- What becomes of each slot of the layout. -/
private theorem splitLayout_apply {sysupgrade : Bool} {kernelSize : Nat} {layout : Layout}
    {pre rest : List FlashPartitionEntry} {firmware : FlashPartitionEntry} {p : Partitions}
    {base : Option UInt32} (hlayout : layout.entries = pre ++ firmware :: rest)
    (hname : firmware.name = ascii "firmware") (hlast : ∀ e ∈ rest, e.name ≠ ascii "firmware")
    (h : splitLayout sysupgrade kernelSize layout = some (p, base)) :
    kernelSize ≤ firmware.size.toNat ∧
      base = some (fileSystemBase sysupgrade firmware.base kernelSize) ∧
      ∀ j ≤ maxPartitions, p j = slots (pre ++ osImage firmware kernelSize ::
        fileSystem sysupgrade firmware kernelSize :: rest) j := by
  rw [splitLayout, lastIndex_firmware hlayout hname hlast, hlayout] at h
  obtain ⟨p', hsplit, heq⟩ := Option.map_eq_some_iff.mp h
  obtain ⟨rfl, rfl⟩ := Prod.mk.inj heq
  obtain ⟨hsize, hp⟩ := splitFirmware_apply hsplit
  refine ⟨hsize, ?_, hp⟩
  have hlen := layout.length_le
  rw [hlayout, List.length_append, List.length_cons] at hlen
  rw [hp (pre.length + 1) (by omega),
    slots_of_some (e := fileSystem sysupgrade firmware kernelSize) (by simp)]
  rfl

/-- Two partitions lie inside the firmware partition, apart from each other, and the second ends
where it ends. -/
structure Splits (firmware os fs : FlashPartitionEntry) : Prop where
  os_inside : os.Inside firmware
  fs_inside : fs.Inside firmware
  disjoint : Disjoint os.addresses fs.addresses
  stop_eq : fs.stop = firmware.stop

/-- `ALIGN(x, 0x10000)` aligns up. -/
private theorem align64k_eq {x : Nat} (hx : x < 2 ^ 63) : align64k x = alignUp x 0x10000 := by
  have halign := add_and_complement (x := x) (b := 16) (w := 64) (by omega) (by omega)
  exact halign

/-- The base of the file system, which may wrap around. -/
private theorem toNat_fileSystemBase {firmware : FlashPartitionEntry} {kernelSize : Nat}
    (hsize : kernelSize ≤ firmware.size.toNat) (sysupgrade : Bool) :
    (fileSystemBase sysupgrade firmware.base kernelSize).toNat =
      (if sysupgrade then firmware.base.toNat + kernelSize
      else alignUp (firmware.base.toNat + kernelSize) 0x10000) % 2 ^ 32 := by
  have hbase := firmware.base.toNat_lt
  have hlt := firmware.size.toNat_lt
  rw [fileSystemBase]
  split
  · exact UInt32.toNat_ofNat'
  · rw [align64k_eq (by omega)]
    exact UInt32.toNat_ofNat'

/-- The file system's base is an address, its size is what a partition from address 0 leaves. -/
private theorem splits_iff {firmware : FlashPartitionEntry} {kernelSize : Nat}
    (hsize : kernelSize ≤ firmware.size.toNat) (sysupgrade : Bool) :
    Splits firmware (osImage firmware kernelSize) (fileSystem sysupgrade firmware kernelSize) ↔
      firmware.base = 0 ∧
        (sysupgrade = false → alignUp kernelSize 0x10000 ≤ firmware.size.toNat) := by
  have hb := firmware.base.toNat_lt
  have hs := firmware.size.toNat_lt
  have hbase := toNat_fileSystemBase hsize sysupgrade
  have hle := le_alignUp kernelSize (show 0 < 0x10000 by omega)
  -- the alignment stays below 2 ^ 32, the subtraction of the base may wrap
  have hmax : alignUp kernelSize 0x10000 ≤ 2 ^ 32 :=
    alignUp_le (by omega) ⟨2 ^ 16, rfl⟩ (by omega)
  have hempty : kernelSize = 0 → alignUp kernelSize 0x10000 = 0 := by
    rintro rfl
    rfl
  have hlt := (fileSystemBase sysupgrade firmware.base kernelSize).toNat_lt
  have hosBase : (osImage firmware kernelSize).base = firmware.base := rfl
  have hfsBase : (fileSystem sysupgrade firmware kernelSize).base =
      fileSystemBase sysupgrade firmware.base kernelSize := rfl
  have hosStop : (osImage firmware kernelSize).stop = firmware.base.toNat + kernelSize := by
    rw [FlashPartitionEntry.stop, osImage, UInt32.toNat_ofNat', Nat.mod_eq_of_lt (by omega)]
  have hfsStop : (fileSystem sysupgrade firmware kernelSize).stop =
      (fileSystemBase sysupgrade firmware.base kernelSize).toNat +
        (2 ^ 32 - (fileSystemBase sysupgrade firmware.base kernelSize).toNat +
          firmware.size.toNat) % 2 ^ 32 := by
    rw [FlashPartitionEntry.stop, fileSystem, UInt32.toNat_sub]
  have hstop : firmware.stop = firmware.base.toNat + firmware.size.toNat := rfl
  constructor
  · intro h
    have hzero : firmware.base.toNat = 0 := by
      -- the sum of base and size is the firmware's size, or wraps past the last address
      have heq := h.stop_eq
      omega
    refine ⟨UInt32.toNat_inj.mp hzero, ?_⟩
    rintro rfl
    have hdisj := h.disjoint
    have heq := h.stop_eq
    rw [FlashPartitionEntry.addresses, FlashPartitionEntry.addresses, Set.Ico_disjoint_Ico,
      hosStop, hosBase, hfsStop, hfsBase] at hdisj
    rw [hzero, Nat.zero_add] at hbase
    simp only [Bool.false_eq_true, if_false] at hbase
    omega
  · rintro ⟨hfirmware, halign⟩
    have hzero : firmware.base.toNat = 0 := by rw [hfirmware, UInt32.toNat_zero]
    rw [hzero, Nat.zero_add] at hbase
    -- the file system starts behind the kernel, inside the firmware
    have hfits : kernelSize ≤ (fileSystemBase sysupgrade firmware.base kernelSize).toNat ∧
        (fileSystemBase sysupgrade firmware.base kernelSize).toNat ≤ firmware.size.toNat := by
      cases sysupgrade with
      | true =>
        simp only [if_true] at hbase
        omega
      | false =>
        have hal := halign rfl
        simp only [Bool.false_eq_true, if_false] at hbase
        omega
    refine ⟨⟨le_rfl, by omega⟩, ⟨by rw [hfsBase]; omega, by omega⟩, ?_, by omega⟩
    rw [FlashPartitionEntry.addresses, FlashPartitionEntry.addresses, Set.Ico_disjoint_Ico,
      hosStop, hosBase, hfsStop, hfsBase]
    omega

/-! ### Sysupgrade images -/

/-- The last entries with the names of the first and the last partition of a sysupgrade image. -/
structure Spans (board : Board) (l : List FlashPartitionEntry) (first : FlashPartitionEntry)
    (between : List FlashPartitionEntry) (last : FlashPartitionEntry) : Prop where
  first_name : first.name = board.firstSysupgradePartition
  last_name : last.name = board.lastSysupgradePartition
  split : ∃ before after, l = before ++ first :: (between ++ last :: after) ∧
    (∀ e ∈ between ++ last :: after, e.name ≠ board.firstSysupgradePartition) ∧
    ∀ e ∈ after, e.name ≠ board.lastSysupgradePartition

/-- The range from the first to the last partition of a sysupgrade image. -/
private theorem findRange_eq (board : Board) (l : List FlashPartitionEntry) (i : Nat)
    (r : FlashRange) :
    findRange board l i r =
      { first := lastMatch (fun e => e.name = board.firstSysupgradePartition) l i r.first
        last := lastMatch (fun e => e.name ≠ board.firstSysupgradePartition ∧
          e.name = board.lastSysupgradePartition) l i r.last } := by
  induction l generalizing i r with
  | nil => rfl
  | cons e es ih =>
    rw [findRange, ih, lastMatch_cons, lastMatch_cons]
    by_cases hfirst : e.name = board.firstSysupgradePartition
    · rw [if_pos hfirst, if_pos hfirst, if_neg fun h => h.1 hfirst]
    · by_cases hlast : e.name = board.lastSysupgradePartition
      · rw [if_neg hfirst, if_pos hlast, if_neg hfirst, if_pos ⟨hfirst, hlast⟩]
      · rw [if_neg hfirst, if_neg hlast, if_neg hfirst, if_neg fun h => hlast h.2]

/-- The image from one partition to another. -/
def sysupgradeImage (parts : List ImagePartitionEntry) (first : FlashPartitionEntry)
    (between : List FlashPartitionEntry) (last : FlashPartitionEntry)
    (lastPart : ImagePartitionEntry) : SysupgradeImage :=
  let r := copyParts parts first.base (first :: (between ++ [last]))
  { len := (last.base - first.base).toNat + lastPart.data.length, copies := r.1, finished := r.2 }

/-- The image of a range. -/
private theorem generateSysupgradeImage_of_spans {board : Board}
    {l between : List FlashPartitionEntry}
    {first last : FlashPartitionEntry} {parts : List ImagePartitionEntry}
    {lastPart : ImagePartitionEntry} (h : Spans board l first between last)
    (hpart : findPart parts board.lastSysupgradePartition = some lastPart) :
    generateSysupgradeImage board l parts =
      some (sysupgradeImage parts first between last lastPart) := by
  obtain ⟨hfirst, hlast, before, after, rfl, hnotFirst, hnotLast⟩ := h
  have hne : last.name ≠ board.firstSysupgradePartition := hnotFirst last (by simp)
  -- the search keeps the last match, and behind these there is none
  have hmatchFirst := lastMatch_eq_some
    (P := fun e : FlashPartitionEntry => e.name = board.firstSysupgradePartition)
    before hfirst hnotFirst 0 none
  have hmatchLast := lastMatch_eq_some
    (P := fun e : FlashPartitionEntry => e.name ≠ board.firstSysupgradePartition ∧
      e.name = board.lastSysupgradePartition)
    (before ++ first :: between) ⟨hne, hlast⟩ (fun e he hboth => hnotLast e he hboth.2) 0 none
  rw [List.append_assoc, List.cons_append] at hmatchLast
  rw [generateSysupgradeImage, findRange_eq, hmatchFirst, hmatchLast]
  have hlt : 0 + before.length < 0 + (before ++ first :: between).length := by simp
  -- the entries from the first to the last are those between the two indices
  have hwindow : ((before ++ first :: (between ++ last :: after)).drop (0 + before.length)).take
      (0 + (before ++ first :: between).length + 1 - (0 + before.length)) =
      first :: (between ++ [last]) := by
    have hlen : 0 + (before ++ first :: between).length + 1 - (0 + before.length) =
        (first :: (between ++ [last])).length := by
      simp only [List.length_append, List.length_cons, List.length_nil]
      omega
    rw [hlen, Nat.zero_add, List.drop_left' rfl]
    have hassoc : first :: (between ++ last :: after) =
        (first :: (between ++ [last])) ++ after := by simp
    rw [hassoc, List.take_left' rfl]
  simp only [if_pos hlt, hwindow, hpart, Option.map_some]
  rfl

/-- Two places in one list, in order. -/
private theorem exists_between {α : Type} {before post pre after : List α} {x y : α}
    (h : before ++ x :: post = pre ++ y :: after) (hlt : before.length < pre.length) :
    ∃ between, post = between ++ y :: after := by
  rcases List.append_eq_append_iff.mp h with ⟨tail, hpre, hpost⟩ | ⟨tail, hbefore, -⟩
  · cases tail with
    | nil =>
      rw [hpre, List.append_nil] at hlt
      exact absurd hlt (Nat.lt_irrefl _)
    | cons z between =>
      rw [List.cons_append] at hpost
      exact ⟨between, (List.cons.inj hpost).2⟩
  · rw [hbefore, List.length_append] at hlt
    omega

/-- An image that was made has a range. -/
private theorem exists_spans {board : Board} {l : List FlashPartitionEntry}
    {parts : List ImagePartitionEntry} {image : SysupgradeImage}
    (h : generateSysupgradeImage board l parts = some image) :
    ∃ first between last lastPart, Spans board l first between last ∧
      findPart parts board.lastSysupgradePartition = some lastPart := by
  rw [generateSysupgradeImage, findRange_eq] at h
  split at h
  · next i first j last heq =>
    obtain ⟨hfirst, hlast⟩ := FlashRange.mk.inj heq
    split at h
    · next hlt =>
      obtain ⟨lastPart, hpart, -⟩ := Option.map_eq_some_iff.mp h
      obtain ⟨before, post, rfl, rfl, hfirstName, hnotFirst⟩ := exists_of_lastMatch hfirst
      obtain ⟨pre, after, hl, rfl, hlastName, hnotLast⟩ := exists_of_lastMatch hlast
      -- the last partition is behind the first, so no later one can have the first's name
      obtain ⟨between, rfl⟩ := exists_between hl (by omega)
      refine ⟨first, between, last, lastPart,
        ⟨hfirstName, hlastName.2, before, after, rfl, hnotFirst, ?_⟩, hpart⟩
      intro e he hname
      exact hnotLast e he ⟨hnotFirst e (by simp [he]), hname⟩
    · cases h
  · cases h

/-- The part of a partition, where there is one, is not larger. -/
def fits (parts : List ImagePartitionEntry) (e : FlashPartitionEntry) : Bool :=
  (findPart parts e.name).all fun part => part.data.length ≤ e.size.toNat

/-- A copy stays inside the buffer. -/
structure Copy.Inside (c : Copy) (len : Nat) : Prop where
  pos_nonneg : 0 ≤ c.pos
  stop_le : c.pos + c.data.length ≤ len

/-- The copies are those of the partitions up to the first one that is too small. -/
private theorem forall_copyParts_iff {parts : List ImagePartitionEntry} {firstBase : UInt32}
    (P : Copy → Prop) (l : List FlashPartitionEntry) :
    (∀ c ∈ (copyParts parts firstBase l).1, P c) ↔
      ∀ e ∈ l.takeWhile (fits parts), ∀ part, findPart parts e.name = some part →
        P { pos := (e.base.toNat : Int) - firstBase.toNat, data := part.data } := by
  induction l with
  | nil => simp [copyParts]
  | cons e es ih =>
    rw [copyParts]
    cases hpart : findPart parts e.name with
    | none =>
      have hfits : fits parts e = true := by rw [fits, hpart]; rfl
      rw [List.takeWhile_cons_of_pos hfits, List.forall_mem_cons, hpart, ih]
      simp
    | some part =>
      by_cases hbig : part.data.length > e.size.toNat
      -- a partition too small for its data ends the loop
      · have hfits : ¬ fits parts e = true := by simp [fits, hpart, hbig]
        rw [List.takeWhile_cons_of_neg hfits]
        simp [hbig]
      · have hfits : fits parts e = true := by
          simpa [fits, hpart] using hbig
        rw [List.takeWhile_cons_of_pos hfits, List.forall_mem_cons, hpart]
        simp only [if_neg hbig, List.forall_mem_cons, ih, Option.some.injEq, forall_eq']

/-- `generate_sysupgrade_image` writes only inside its buffer. -/
def SysupgradeImage.Inside (image : SysupgradeImage) : Prop :=
  ∀ c ∈ image.copies, c.Inside image.len

/-- The parts of the partitions from the first to the last one, up to one that is too small, lie
between the start of the first partition and the end of the last one's part. -/
def RangeFits (board : Board) (l : List FlashPartitionEntry) (parts : List ImagePartitionEntry) :
    Prop :=
  ∀ first between last lastPart, Spans board l first between last →
    findPart parts board.lastSysupgradePartition = some lastPart →
    ∀ e ∈ (first :: (between ++ [last])).takeWhile (fits parts), ∀ part,
      findPart parts e.name = some part → first.base ≤ e.base ∧
        e.base.toNat - first.base.toNat + part.data.length ≤
          (last.base - first.base).toNat + lastPart.data.length

/-- All images are inside exactly if the range fits. -/
theorem generateSysupgradeImage_inside_iff (board : Board) (l : List FlashPartitionEntry)
    (parts : List ImagePartitionEntry) :
    (∀ image, generateSysupgradeImage board l parts = some image → image.Inside) ↔
      RangeFits board l parts := by
  -- a copy is inside if it begins at the first base or behind it and ends in the image
  have hcopy : ∀ (first e : FlashPartitionEntry) (part : ImagePartitionEntry) (len : Nat),
      Copy.Inside { pos := (e.base.toNat : Int) - first.base.toNat, data := part.data } len ↔
        first.base ≤ e.base ∧ e.base.toNat - first.base.toNat + part.data.length ≤ len := by
    intro first e part len
    rw [UInt32.le_iff_toNat_le]
    constructor
    · rintro ⟨hpos, hstop⟩
      simp only at hpos hstop
      omega
    · rintro ⟨hle, hstop⟩
      exact ⟨by simp only; omega, by simp only; omega⟩
  constructor
  · intro h first between last lastPart hspans hpart e he part hfind
    have hinside := h _ (generateSysupgradeImage_of_spans hspans hpart)
    rw [SysupgradeImage.Inside] at hinside
    exact (hcopy first e part _).mp ((forall_copyParts_iff _ _).mp hinside e he part hfind)
  · intro h image himage
    obtain ⟨first, between, last, lastPart, hspans, hpart⟩ := exists_spans himage
    rw [generateSysupgradeImage_of_spans hspans hpart] at himage
    obtain rfl := Option.some.inj himage
    refine (forall_copyParts_iff (fun c => c.Inside _) _).mpr ?_
    intro e he part hfind
    exact (hcopy first e part _).mpr (h first between last lastPart hspans hpart e he part hfind)

/-- A layout in the order of its addresses. -/
def InOrder (l : List FlashPartitionEntry) : Prop :=
  l.Pairwise fun e f => e.stop ≤ f.base.toNat

/-- It fits if the layout is in order. -/
theorem rangeFits_of_inOrder {board : Board} {l : List FlashPartitionEntry}
    (h : InOrder l) (parts : List ImagePartitionEntry) : RangeFits board l parts := by
  intro first between last lastPart hspans hlastPart e he part hpart
  obtain ⟨-, hname, before, after, rfl, -⟩ := hspans
  obtain ⟨hfirst, hrest⟩ := List.pairwise_cons.mp (List.pairwise_append.mp h).2.1
  have hbetween := (List.pairwise_append.mp hrest).2.2
  have hfirstLast := hfirst last (by simp)
  have hsize : part.data.length ≤ e.size.toNat := by
    have hfits := List.mem_takeWhile_imp he
    simpa [fits, hpart] using hfits
  have hlen : (last.base - first.base).toNat = last.base.toNat - first.base.toNat := by
    apply UInt32.toNat_sub_of_le
    rw [UInt32.le_iff_toNat_le]
    exact (Nat.le_add_right _ _).trans hfirstLast
  rw [UInt32.le_iff_toNat_le, hlen]
  rw [FlashPartitionEntry.stop] at hfirstLast
  -- the first one, one between, or the last one: each ends before the last one's base or in its
  -- part
  rcases List.mem_cons.mp ((List.takeWhile_subset _) he) with rfl | he
  · omega
  · rcases List.mem_append.mp he with he | he
    · have hfrom := hfirst e (by simp [he])
      have hto := hbetween e he last (by simp)
      rw [FlashPartitionEntry.stop] at hfrom hto
      omega
    · -- the last partition's part is the one that the length counts
      obtain rfl := List.mem_singleton.mp he
      rw [hname, hlastPart] at hpart
      obtain rfl := Option.some.inj hpart
      omega

/-! ### The split of a layout -/

/-- The layout after the split: the two partitions divide the firmware partition and the others are
as they were. -/
def SplitsLayout (pre : List FlashPartitionEntry) (firmware : FlashPartitionEntry)
    (rest : List FlashPartitionEntry) (p : Partitions) : Prop :=
  ∃ os fs, entries p = some (pre ++ os :: fs :: rest) ∧ os.name = ascii "os-image" ∧
    fs.name = ascii "file-system" ∧ Splits firmware os fs

/-- A layout with its firmware partition divided behind a kernel. -/
def dividedLayout (pre : List FlashPartitionEntry) (firmware : FlashPartitionEntry)
    (rest : List FlashPartitionEntry) (kernelSize : Nat) : List FlashPartitionEntry :=
  let size := UInt32.ofNat kernelSize
  pre ++ { name := ascii "os-image", base := firmware.base, size := size } ::
    { name := ascii "file-system", base := firmware.base + size, size := firmware.size - size } ::
    rest

/-- The new layout is seen whole where the array has a slot left. -/
private theorem entries_of_split {layout : Layout} {pre rest : List FlashPartitionEntry}
    {firmware os fs : FlashPartitionEntry} {p : Partitions}
    (hlayout : layout.entries = pre ++ firmware :: rest)
    (hp : ∀ j ≤ maxPartitions, p j = slots (pre ++ os :: fs :: rest) j) :
    entries p =
      if layout.entries.length < maxPartitions then some (pre ++ os :: fs :: rest) else none := by
  have hlen : (pre ++ os :: fs :: rest).length = layout.entries.length + 1 := by
    rw [hlayout, List.length_append, List.length_append, List.length_cons, List.length_cons,
      List.length_cons]
    omega
  have hentries := entries_eq hp
  simp only [hlen, Nat.add_one_le_iff] at hentries
  exact hentries

/-- The layout is split well exactly if it has room for the parts. -/
theorem splitsLayout_iff {sysupgrade : Bool} {kernelSize : Nat} {layout : Layout}
    {pre rest : List FlashPartitionEntry} {firmware : FlashPartitionEntry} {p : Partitions}
    {base : Option UInt32} (hlayout : layout.entries = pre ++ firmware :: rest)
    (hname : firmware.name = ascii "firmware") (hlast : ∀ e ∈ rest, e.name ≠ ascii "firmware")
    (h : splitLayout sysupgrade kernelSize layout = some (p, base)) :
    SplitsLayout pre firmware rest p ↔ layout.entries.length < maxPartitions ∧ firmware.base = 0 ∧
      (sysupgrade = false → alignUp kernelSize 0x10000 ≤ firmware.size.toNat) := by
  obtain ⟨hsize, -, hp⟩ := splitLayout_apply hlayout hname hlast h
  have hentries := entries_of_split hlayout hp
  rw [← splits_iff hsize]
  constructor
  · rintro ⟨os, fs, heq, -, -, hsplits⟩
    -- with a slot left, the two partitions are those that the entries show
    by_cases hlt : layout.entries.length < maxPartitions
    · rw [hentries, if_pos hlt] at heq
      have htail := List.append_cancel_left (Option.some.inj heq)
      obtain ⟨rfl, hfs⟩ := List.cons.inj htail
      obtain ⟨rfl, -⟩ := List.cons.inj hfs
      exact ⟨hlt, hsplits⟩
    · -- the array has no slot left for its end
      rw [hentries, if_neg hlt] at heq
      cases heq
  · rintro ⟨hlt, hsplits⟩
    exact ⟨_, _, by rw [hentries, if_pos hlt], rfl, rfl, hsplits⟩

/-- From address 0 on, the file system starts and ends where it should. -/
private theorem fileSystem_eq {firmware : FlashPartitionEntry} (hbase : firmware.base = 0)
    (kernelSize : Nat) :
    fileSystem true firmware kernelSize =
      { name := ascii "file-system", base := firmware.base + UInt32.ofNat kernelSize,
        size := firmware.size - UInt32.ofNat kernelSize } := by
  have hfs : fileSystemBase true firmware.base kernelSize = UInt32.ofNat kernelSize := by
    rw [fileSystemBase, if_pos rfl, hbase, UInt32.toNat_zero, Nat.zero_add]
  rw [fileSystem, hfs, hbase, UInt32.zero_add]

/-- A sysupgrade image is made of the split layout. -/
theorem buildSysupgrade_eq {board : Board} {pre rest : List FlashPartitionEntry}
    {firmware : FlashPartitionEntry} {p : Partitions} {base : Option UInt32}
    (hlayout : board.layout.entries = pre ++ firmware :: rest)
    (hname : firmware.name = ascii "firmware") (hlast : ∀ e ∈ rest, e.name ≠ ascii "firmware")
    (r : Request) (h : splitLayout true r.kernel.length board.layout = some (p, base))
    (hlen : board.layout.entries.length < maxPartitions) (hbase : firmware.base = 0)
    (heap : Mem) :
    buildSysupgrade heap board r =
      (imageParts heap r (dividedLayout pre firmware rest r.kernel.length)
        (some (firmware.base + UInt32.ofNat r.kernel.length))).bind
        (generateSysupgradeImage board (dividedLayout pre firmware rest r.kernel.length)) := by
  obtain ⟨-, hfs, hp⟩ := splitLayout_apply hlayout hname hlast h
  -- with base 0 the file system starts right behind the kernel
  have hdivided : pre ++ osImage firmware r.kernel.length ::
      fileSystem true firmware r.kernel.length :: rest =
      dividedLayout pre firmware rest r.kernel.length := by
    rw [fileSystem_eq hbase]
    rfl
  have hentries : entries p = some (dividedLayout pre firmware rest r.kernel.length) := by
    rw [entries_of_split hlayout hp, if_pos hlen, hdivided]
  have hfsBase : fileSystemBase true firmware.base r.kernel.length =
      firmware.base + UInt32.ofNat r.kernel.length :=
    congrArg FlashPartitionEntry.base (fileSystem_eq hbase r.kernel.length)
  rw [buildSysupgrade, h, hfs, hfsBase]
  simp only [Option.bind_eq_bind, Option.bind_some, hentries]

/-- The firmware partition of a layout is divided, and a sysupgrade image is written inside its
buffer, exactly where the partition starts at address 0, the layout has room for one more entry, an
aligned kernel fits and so does what a sysupgrade image holds. -/
theorem splitLayout_good_iff (board : Board) {pre rest : List FlashPartitionEntry}
    {firmware : FlashPartitionEntry} {p : Partitions} {base : Option UInt32} {sysupgrade : Bool}
    (hlayout : board.layout.entries = pre ++ firmware :: rest)
    (hname : firmware.name = ascii "firmware") (hlast : ∀ e ∈ rest, e.name ≠ ascii "firmware")
    (r : Request) (h : splitLayout sysupgrade r.kernel.length board.layout = some (p, base))
    (heap : Mem) :
    (SplitsLayout pre firmware rest p ∧ (sysupgrade = true →
      ∀ image, buildSysupgrade heap board r = some image → image.Inside)) ↔
    (board.layout.entries.length < maxPartitions ∧ firmware.base = 0 ∧
      (sysupgrade = false → alignUp r.kernel.length 0x10000 ≤ firmware.size.toNat)) ∧
      (sysupgrade = true → ∀ parts,
        imageParts heap r (dividedLayout pre firmware rest r.kernel.length)
          (some (firmware.base + UInt32.ofNat r.kernel.length)) = some parts →
        RangeFits board (dividedLayout pre firmware rest r.kernel.length) parts) := by
  rw [splitsLayout_iff hlayout hname hlast h]
  refine and_congr_right fun hsplits => ?_
  refine imp_congr_right fun hsysupgrade => ?_
  subst hsysupgrade
  rw [buildSysupgrade_eq hlayout hname hlast r h hsplits.1 hsplits.2.1]
  -- what is written depends on the parts, which the new layout and the request decide
  constructor
  · intro hinside parts hparts
    rw [← generateSysupgradeImage_inside_iff]
    intro image himage
    apply hinside image
    rw [hparts, Option.bind_some, himage]
  · intro hfits image himage
    obtain ⟨parts, hparts, hgenerate⟩ := Option.bind_eq_some_iff.mp himage
    exact (generateSysupgradeImage_inside_iff _ _ _).mpr (hfits parts hparts) image hgenerate

/-- A kernel that is not larger than the firmware partition is accepted. -/
theorem exists_splitLayout (layout : Layout) {pre rest : List FlashPartitionEntry}
    {firmware : FlashPartitionEntry} (hlayout : layout.entries = pre ++ firmware :: rest)
    (hname : firmware.name = ascii "firmware") (hlast : ∀ e ∈ rest, e.name ≠ ascii "firmware")
    (sysupgrade : Bool) (kernelSize : Nat) (hsize : kernelSize ≤ firmware.size.toNat) :
    ∃ p base, splitLayout sysupgrade kernelSize layout = some (p, base) := by
  have hfirmware : slots (pre ++ firmware :: rest) pre.length = firmware.slot :=
    slots_of_some (by simp)
  rw [splitLayout, lastIndex_firmware hlayout hname hlast, hlayout]
  simp only [splitFirmware, hfirmware]
  rw [if_neg (show ¬ kernelSize > firmware.slot.size.toNat from Nat.not_lt.mpr hsize)]
  exact ⟨_, _, rfl⟩

/-! ### Two boards -/

def cpe210Pre : List FlashPartitionEntry :=
  [⟨ascii "fs-uboot", 0x00000, 0x20000⟩, ⟨ascii "partition-table", 0x20000, 0x02000⟩,
    ⟨ascii "default-mac", 0x30000, 0x00020⟩, ⟨ascii "product-info", 0x31100, 0x00100⟩,
    ⟨ascii "signature", 0x32000, 0x00400⟩]

def cpe210Firmware : FlashPartitionEntry := ⟨ascii "firmware", 0x40000, 0x770000⟩

def cpe210Rest : List FlashPartitionEntry :=
  [⟨ascii "soft-version", 0x7b0000, 0x00100⟩, ⟨ascii "support-list", 0x7b1000, 0x00400⟩,
    ⟨ascii "user-config", 0x7c0000, 0x10000⟩, ⟨ascii "default-config", 0x7d0000, 0x10000⟩,
    ⟨ascii "log", 0x7e0000, 0x10000⟩, ⟨ascii "radio", 0x7f0000, 0x10000⟩]

/-- The layout of the CPE210 fits the array. -/
private theorem cpe210_length_le :
    (cpe210Pre ++ cpe210Firmware :: cpe210Rest).length ≤ maxPartitions := by decide

/-- The layout of the CPE210. -/
def cpe210 : Layout :=
  { entries := cpe210Pre ++ cpe210Firmware :: cpe210Rest, length_le := cpe210_length_le }

/-- The file system of a CPE210 ends before its firmware partition did. -/
theorem cpe210_not_split : ∃ p base, splitLayout false 0x180000 cpe210 = some (p, base) ∧
    ¬ SplitsLayout cpe210Pre cpe210Firmware cpe210Rest p := by
  have hlast : ∀ e ∈ cpe210Rest, e.name ≠ ascii "firmware" := by decide
  obtain ⟨p, base, h⟩ := exists_splitLayout cpe210 rfl rfl hlast false 0x180000 (by decide)
  refine ⟨p, base, h, fun hsplits => ?_⟩
  obtain ⟨-, hbase, -⟩ := (splitsLayout_iff rfl rfl hlast h).mp hsplits
  exact absurd hbase (by decide)

def samplePre : List FlashPartitionEntry := []

def sampleFirmware : FlashPartitionEntry := ⟨ascii "firmware", 0, 0x700000⟩

def sampleRest : List FlashPartitionEntry := [⟨ascii "support-list", 0x700000, 0x400⟩]

/-- The layout of the examples fits the array. -/
private theorem sampleBoard_length_le :
    (samplePre ++ sampleFirmware :: sampleRest).length ≤ maxPartitions := by decide

/-- A board whose firmware partition is at the start of the flash. -/
def sampleBoard : Board :=
  { layout :=
      { entries := samplePre ++ sampleFirmware :: sampleRest, length_le := sampleBoard_length_le }
    firstSysupgradePartition := ascii "os-image"
    lastSysupgradePartition := ascii "support-list" }

/-- A kernel and a root file system. -/
def sampleRequest : Request :=
  { kernel := [1, 2, 3]
    rootfs := [4, 5]
    addJffs2Eof := true
    softVersion := ⟨ascii "soft-version", [6]⟩
    supportList := ⟨ascii "support-list", [7]⟩
    extraPara := none }

/-- The layout of the examples is split well. -/
theorem sampleBoard_split : ∃ p base,
    splitLayout true sampleRequest.kernel.length sampleBoard.layout = some (p, base) ∧
      SplitsLayout samplePre sampleFirmware sampleRest p ∧
      ∀ image, buildSysupgrade (fun _ => 0) sampleBoard sampleRequest = some image →
        image.Inside := by
  have hlast : ∀ e ∈ sampleRest, e.name ≠ ascii "firmware" := by decide
  obtain ⟨p, base, h⟩ := exists_splitLayout sampleBoard.layout rfl rfl hlast true
    sampleRequest.kernel.length (by decide)
  have hinOrder : InOrder
      (dividedLayout samplePre sampleFirmware sampleRest sampleRequest.kernel.length) := by
    unfold InOrder
    decide
  obtain ⟨hsplits, hinside⟩ :=
    (splitLayout_good_iff sampleBoard rfl rfl hlast sampleRequest h (fun _ => 0)).mpr
      ⟨⟨by decide, rfl, by simp⟩, fun _ parts _ => rangeFits_of_inOrder hinOrder parts⟩
  exact ⟨p, base, h, hsplits, hinside rfl⟩

end HandsomeMod.Native.Safeloader
