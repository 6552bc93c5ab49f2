import HandsomeMod.Native.Jffs2

/-!
# When `mtd_parse_jffs2data` ends inside the erase block

The scan goes from node to node by `totlen`, which it takes as it is. It ends, and reads only bytes
of the erase block, exactly if the fields that are read of each node that it comes to lie inside,
and it never comes back to a node.
-/

namespace HandsomeMod.Native.Jffs2

open ForStd
open Mtd (MtdDev)

variable {c : Cfg} {d : MtdDev} {dir buf : List UInt8} {g : Globals}

/-! ### What is read of a node -/

/-- A field as it is in the erase block. -/
def rawField (c : Cfg) (buf : List UInt8) (n pos : Nat) : Nat :=
  c.endian.load n fun i => buf.getD (pos + i) 0

/-- A field is read exactly if it is inside of the buffer. -/
private theorem fieldAt_eq_ok_iff {n pos v : Nat} :
    fieldAt c buf n pos = .ok v ↔ pos + n ≤ buf.length ∧ v = rawField c buf n pos := by
  rw [fieldAt]
  split
  case isTrue h => simp [h, rawField, eq_comm]
  case isFalse h => simp [h]

/-- A field inside of the buffer is read. -/
private theorem fieldAt_of_le {n pos : Nat} (h : pos + n ≤ buf.length) :
    fieldAt c buf n pos = .ok (rawField c buf n pos) := fieldAt_eq_ok_iff.mpr ⟨h, rfl⟩

/-- A byte is read exactly if it is inside of the buffer. -/
private theorem byteAt_eq_ok_iff {pos : Nat} {b : UInt8} :
    byteAt buf pos = .ok b ↔ pos < buf.length ∧ b = buf.getD pos 0 := by
  rw [byteAt]
  by_cases h : pos < buf.length
  · rw [List.getElem?_eq_getElem h, List.getD_eq_getElem _ _ h]
    simp [h, eq_comm]
  · rw [List.getElem?_eq_none (by omega)]
    simp [h]

/-- `strncmp` of the name at `pos` stays inside: a byte is looked at if those before it are those of
    the directory's name. -/
def NameInside (buf : List UInt8) (pos : Nat) (dir : List UInt8) (n : Nat) : Prop :=
  ∀ i < n, (∀ j < i, buf.getD (pos + j) 0 = dir.getD j 0 ∧ dir.getD j 0 ≠ 0) →
    pos + i < buf.length

instance (buf : List UInt8) (pos : Nat) (dir : List UInt8) (n : Nat) :
    Decidable (NameInside buf pos dir n) := by
  unfold NameInside
  infer_instance

/-- The comparison reads the next character only if the ones before were equal. -/
private theorem nameInside_succ_iff {pos n : Nat} :
    NameInside buf pos dir (n + 1) ↔ pos < buf.length ∧
      (buf.getD pos 0 = dir.headD 0 ∧ dir.headD 0 ≠ 0 → NameInside buf (pos + 1) dir.tail n) := by
  have hhead : dir.getD 0 0 = dir.headD 0 := by cases dir <;> rfl
  have htail : ∀ j, dir.getD (j + 1) 0 = dir.tail.getD j 0 := by
    intro j
    cases dir <;> rfl
  -- the comparison reads the next byte only when this one agrees and is no end of string
  constructor
  · intro h
    refine ⟨h 0 (Nat.succ_pos n) fun j hj => absurd hj (Nat.not_lt_zero j), fun hfirst i hi hj => ?_⟩
    have hlast := h (i + 1) (Nat.succ_lt_succ hi) fun j hlt => by
      cases j with
      | zero => rwa [hhead, Nat.add_zero]
      | succ j =>
        rw [htail, Nat.add_comm j, ← Nat.add_assoc]
        exact hj j (Nat.lt_of_succ_lt_succ hlt)
    rwa [Nat.add_comm i, ← Nat.add_assoc] at hlast
  · rintro ⟨hpos, hrest⟩ i hi hj
    cases i with
    | zero => exact hpos
    | succ i =>
      have hfirst := hj 0 (Nat.succ_pos i)
      rw [hhead, Nat.add_zero] at hfirst
      have hin := hrest hfirst i (Nat.lt_of_succ_lt_succ hi) fun j hlt => by
        have hnext := hj (j + 1) (Nat.succ_lt_succ hlt)
        rwa [htail, Nat.add_comm j, ← Nat.add_assoc] at hnext
      rwa [Nat.add_comm i, ← Nat.add_assoc]

/-- `strncmp` stays inside of the buffer exactly if the characters that it reads do. -/
private theorem strncmpEq_ok_iff (n : Nat) (pos : Nat) (dir : List UInt8) :
    (∃ r, strncmpEq buf pos dir n = .ok r) ↔ NameInside buf pos dir n := by
  -- induction on the count of `strncmp`, both strings moving by one
  induction n generalizing pos dir with
  | zero =>
    rw [strncmpEq]
    exact ⟨fun _ i hi => absurd hi (Nat.not_lt_zero i), fun _ => ⟨true, rfl⟩⟩
  | succ n ih =>
    rw [strncmpEq, exists_bind_ok_iff, nameInside_succ_iff, ← ih]
    simp only [byteAt_eq_ok_iff]
    constructor
    · rintro ⟨a, ⟨hpos, rfl⟩, hrest⟩
      refine ⟨hpos, fun ⟨heq, hne⟩ => ?_⟩
      rw [if_neg (not_not.mpr heq), if_neg (by rw [heq]; exact hne)] at hrest
      exact hrest
    · rintro ⟨hpos, hrest⟩
      refine ⟨_, ⟨hpos, rfl⟩, ?_⟩
      by_cases heq : buf.getD pos 0 = dir.headD 0
      · rw [if_neg (not_not.mpr heq)]
        by_cases hzero : buf.getD pos 0 = 0
        · rw [if_pos hzero]
          exact ⟨true, rfl⟩
        · rw [if_neg hzero]
          exact hrest ⟨heq, heq ▸ hzero⟩
      · rw [if_pos heq]
        exact ⟨false, rfl⟩

/-- What is read of a directory entry lies inside. -/
def DirentInside (c : Cfg) (dir buf : List UInt8) (node : Nat) : Prop :=
  node + 24 ≤ buf.length ∧ (dir ≠ [] → rawField c buf 4 (node + 12) = 1 →
    node + 28 < buf.length ∧ NameInside buf (node + 40) dir (buf.getD (node + 28) 0).toNat)

/-- There is a node at `ofs`. -/
def IsNode (c : Cfg) (buf : List UInt8) (ofs : Nat) : Prop :=
  rawField c buf 2 ofs = jffs2MagicBitmask

/-- The node at `ofs` is a directory entry. -/
def IsDirent (c : Cfg) (buf : List UInt8) (ofs : Nat) : Prop :=
  rawField c buf 2 (ofs + 2) = jffs2NodetypeDirent

/-- What is read at `ofs` lies inside. -/
def NodeInside (c : Cfg) (dir buf : List UInt8) (ofs : Nat) : Prop :=
  ofs + 2 ≤ buf.length ∧ (IsNode c buf ofs →
    ofs + 8 ≤ buf.length ∧ (IsDirent c buf ofs → DirentInside c dir buf ofs))

instance (c : Cfg) (dir buf : List UInt8) (node : Nat) :
    Decidable (DirentInside c dir buf node) := by
  unfold DirentInside
  infer_instance

instance (c : Cfg) (buf : List UInt8) (ofs : Nat) : Decidable (IsNode c buf ofs) := by
  unfold IsNode
  infer_instance

instance (c : Cfg) (buf : List UInt8) (ofs : Nat) : Decidable (IsDirent c buf ofs) := by
  unfold IsDirent
  infer_instance

instance (c : Cfg) (dir buf : List UInt8) (ofs : Nat) : Decidable (NodeInside c dir buf ofs) := by
  unfold NodeInside
  infer_instance

/-- The test of a directory entry stays inside of the buffer exactly if its fields and the name
    do. -/
private theorem isTarget_ok_iff (node : Nat) :
    (∃ found, isTarget c dir buf node = .ok found) ↔ (dir ≠ [] → node + 16 ≤ buf.length ∧
      (rawField c buf 4 (node + 12) = 1 →
        node + 28 < buf.length ∧ NameInside buf (node + 40) dir (buf.getD (node + 28) 0).toNat)) := by
  rw [isTarget]
  by_cases hdir : dir = []
  · rw [if_pos hdir]
    exact ⟨fun _ hne => absurd hdir hne, fun _ => ⟨false, rfl⟩⟩
  rw [if_neg hdir, exists_bind_ok_iff]
  simp only [fieldAt_eq_ok_iff, and_assoc, exists_eq_left, exists_and_left, ne_eq, hdir,
    not_false_eq_true, forall_const]
  refine and_congr_right fun _ => ?_
  -- the name is only compared under the root
  by_cases hpino : rawField c buf 4 (node + 12) = 1
  · simp only [hpino, ↓reduceIte, exists_bind_ok_iff, byteAt_eq_ok_iff, forall_const, and_assoc,
      exists_and_left, exists_eq_left, strncmpEq_ok_iff]
  · simp only [hpino, ↓reduceIte, false_imp_iff, iff_true]
    exact ⟨false, rfl⟩

/-- The globals behind a directory entry. -/
def Globals.seen (g : Globals) (ino version : Nat) (found : Bool) : Globals :=
  { lastIno := if g.lastIno.toNat < ino then UInt32.ofNat ino else g.lastIno
    lastVersion :=
      if g.lastVersion.toNat < version then UInt32.ofNat version else g.lastVersion
    targetIno := if found then UInt32.ofNat ino else g.targetIno }

/-- What the scan takes over from a directory entry. -/
private theorem scanDirent_eq_ok_iff {g g' : Globals} {node : Nat} :
    scanDirent c dir buf node g = .ok g' ↔ node + 24 ≤ buf.length ∧
      ∃ found, isTarget c dir buf node = .ok found ∧
        g' = g.seen (rawField c buf 4 (node + 20)) (rawField c buf 4 (node + 16)) found := by
  rw [scanDirent]
  constructor
  · intro h
    obtain ⟨found, hfound, h⟩ := bind_ok h
    obtain ⟨ino, hino, h⟩ := bind_ok h
    obtain ⟨version, hversion, h⟩ := bind_ok h
    obtain ⟨hin, rfl⟩ := fieldAt_eq_ok_iff.mp hino
    obtain ⟨-, rfl⟩ := fieldAt_eq_ok_iff.mp hversion
    cases h
    exact ⟨hin, found, hfound, rfl⟩
  · rintro ⟨hin, found, hfound, rfl⟩
    rw [hfound, ok_bind, fieldAt_of_le (by omega : node + 20 + 4 ≤ buf.length), ok_bind,
      fieldAt_of_le (by omega : node + 16 + 4 ≤ buf.length)]
    rfl

/-- A directory entry is scanned inside of the buffer exactly if what is read of it is there. -/
private theorem scanDirent_ok_iff (g : Globals) (node : Nat) :
    (∃ g', scanDirent c dir buf node g = .ok g') ↔ DirentInside c dir buf node := by
  simp only [scanDirent_eq_ok_iff, exists_and_left, DirentInside]
  refine and_congr_right fun hin => ?_
  have hexists : (∃ g', ∃ found, isTarget c dir buf node = .ok found ∧
      g' = g.seen (rawField c buf 4 (node + 20)) (rawField c buf 4 (node + 16)) found) ↔
      ∃ found, isTarget c dir buf node = .ok found :=
    ⟨fun ⟨_, found, h, _⟩ => ⟨found, h⟩, fun ⟨found, h⟩ => ⟨_, found, h, rfl⟩⟩
  rw [hexists, isTarget_ok_iff]
  exact imp_congr_right fun _ => and_iff_right (by omega)

/-- What the scan does at a node, where it stays inside. -/
private theorem scanNode_eq_ok_iff {ofs : UInt32} {g : Globals} {r : Option (UInt32 × Globals)} :
    scanNode c dir buf ofs g = .ok r ↔ ofs.toNat + 2 ≤ buf.length ∧
      (¬IsNode c buf ofs.toNat ∧ r = none ∨
        IsNode c buf ofs.toNat ∧ ofs.toNat + 8 ≤ buf.length ∧ ∃ g',
          (IsDirent c buf ofs.toNat ∧ scanDirent c dir buf ofs.toNat g = .ok g' ∨
            ¬IsDirent c buf ofs.toNat ∧ g' = g) ∧
          r = some (ofs + padded (UInt32.ofNat (rawField c buf 4 (ofs.toNat + 4))), g')) := by
  rw [scanNode]
  -- the reads in the order of the source: magic, total length, node type
  by_cases hin : ofs.toNat + 2 ≤ buf.length
  swap
  · simp only [hin, false_and, iff_false]
    intro h
    obtain ⟨magic, hmagic, -⟩ := bind_ok h
    exact hin (fieldAt_eq_ok_iff.mp hmagic).1
  rw [fieldAt_of_le hin, ok_bind]
  simp only [hin, true_and]
  by_cases hnode : IsNode c buf ofs.toNat
  swap
  · rw [if_pos (show rawField c buf 2 ofs.toNat ≠ jffs2MagicBitmask from hnode)]
    simp only [hnode, not_false_eq_true, true_and, false_and, or_false]
    exact ⟨fun h => (Except.ok.inj h).symm, fun h => h ▸ rfl⟩
  rw [if_neg (show ¬rawField c buf 2 ofs.toNat ≠ jffs2MagicBitmask from not_not.mpr hnode)]
  simp only [hnode, not_true_eq_false, false_and, true_and, false_or]
  by_cases hlen : ofs.toNat + 8 ≤ buf.length
  swap
  · simp only [hlen, false_and, iff_false]
    intro h
    obtain ⟨totlen, htotlen, -⟩ := bind_ok h
    exact hlen (fieldAt_eq_ok_iff.mp htotlen).1
  rw [fieldAt_of_le (by omega : ofs.toNat + 4 + 4 ≤ buf.length), ok_bind,
    fieldAt_of_le (by omega : ofs.toNat + 2 + 2 ≤ buf.length), ok_bind]
  simp only [hlen, true_and]
  -- a node of another type is stepped over
  by_cases hdirent : IsDirent c buf ofs.toNat
  · rw [if_pos (show rawField c buf 2 (ofs.toNat + 2) = jffs2NodetypeDirent from hdirent)]
    simp only [hdirent, true_and, not_true_eq_false, false_and, or_false]
    constructor
    · intro h
      obtain ⟨g', hg', h⟩ := bind_ok h
      exact ⟨g', hg', (Except.ok.inj h).symm⟩
    · rintro ⟨g', hg', rfl⟩
      rw [hg']
      rfl
  · rw [if_neg (show ¬rawField c buf 2 (ofs.toNat + 2) = jffs2NodetypeDirent from hdirent)]
    simp only [hdirent, false_and, not_false_eq_true, true_and, false_or, exists_eq_left]
    exact ⟨fun h => (Except.ok.inj h).symm, fun h => h ▸ rfl⟩

/-- A node is scanned inside of the buffer exactly if what is read of it is there. -/
theorem scanNode_ok_iff (ofs : UInt32) (g : Globals) :
    (∃ r, scanNode c dir buf ofs g = .ok r) ↔ NodeInside c dir buf ofs.toNat := by
  simp only [scanNode_eq_ok_iff, exists_and_left, NodeInside]
  refine and_congr_right fun _ => ?_
  by_cases hnode : IsNode c buf ofs.toNat
  swap
  · simp only [hnode, not_false_eq_true, true_and, false_and, or_false, exists_eq, false_imp_iff]
  simp only [hnode, not_true_eq_false, true_and, false_and, false_or, exists_and_left, forall_const]
  refine and_congr_right fun _ => ?_
  -- an entry is read further than any other node
  by_cases hdirent : IsDirent c buf ofs.toNat
  · simp only [hdirent, true_and, not_true_eq_false, false_and, or_false, forall_const]
    rw [← scanDirent_ok_iff g]
    exact ⟨fun ⟨_, g', h, _⟩ => ⟨g', h⟩, fun ⟨g', h⟩ => ⟨_, g', h, rfl⟩⟩
  · simp only [hdirent, false_and, false_or, not_false_eq_true, true_and, exists_eq_left,
      exists_eq, false_imp_iff]

/-! ### From node to node -/

/-- Where the scan goes on behind the node at `ofs`. -/
def nextNode (c : Cfg) (d : MtdDev) (dir buf : List UInt8) (ofs : Nat) : Option Nat :=
  if ofs < d.erasesize ∧ NodeInside c dir buf ofs ∧ IsNode c buf ofs then
    some ((ofs + (padded (UInt32.ofNat (rawField c buf 4 (ofs + 4)))).toNat) % 2 ^ 32)
  else none

/-- A turn of the scan moves by the length of the node. -/
theorem nextNode_eq (c : Cfg) (d : MtdDev) (dir buf : List UInt8) (s : UInt32 × Globals) :
    (scanTurn c d dir buf s).getRight?.map (fun s => s.1.toNat) =
      nextNode c d dir buf s.1.toNat := by
  obtain ⟨ofs, g⟩ := s
  rw [scanTurn, nextNode]
  by_cases hlt : ofs.toNat < d.erasesize
  swap
  · simp only [hlt, if_false, false_and]
    rfl
  simp only [hlt, if_true, true_and]
  -- a turn that stays inside goes on exactly where the pure successor does
  by_cases hin : NodeInside c dir buf ofs.toNat
  · obtain ⟨r, hr⟩ := (scanNode_ok_iff ofs g).mpr hin
    rw [hr]
    obtain ⟨-, ⟨hnode, rfl⟩ | ⟨hnode, -, g', -, rfl⟩⟩ := scanNode_eq_ok_iff.mp hr
    · simp only [hnode, and_false, if_false]
      rfl
    · simp only [hnode, hin, and_self, if_true, Sum.getRight?_inr, Option.map_some]
      rw [UInt32.toNat_add]
  · cases hr : scanNode c dir buf ofs g with
    | ok r => exact absurd ((scanNode_ok_iff ofs g).mp ⟨r, hr⟩) hin
    | error e =>
      simp only [hin, false_and, if_false]
      rfl

/-! ### Inside the erase block -/

/-- The scan of an erase block ends, and stays inside. -/
def ScansInside (c : Cfg) (d : MtdDev) (dir buf : List UInt8) (g : Globals) : Prop :=
  ∃ fuel g', mtdParseJffs2data c d dir fuel buf g = .ok g'

/-- What an erase block has to be like: what is read of each node that the scan comes to lies inside,
    and the scan does not come back to a node. -/
structure NodesInside (c : Cfg) (d : MtdDev) (dir buf : List UInt8) : Prop where
  inside : ∀ ofs, Loop.Visits (nextNode c d dir buf) 0 ofs → ofs < d.erasesize →
    NodeInside c dir buf ofs
  acyclic : Loop.Acyclic (nextNode c d dir buf) 0

/-- The scan of a block is its loop. -/
private theorem mtdParseJffs2data_eq_ok_iff {fuel : Nat} {g g' : Globals} :
    mtdParseJffs2data c d dir fuel buf g = .ok g' ↔
      Loop.run (scanTurn c d dir buf) fuel (0, g) = some (.ok g') := by
  rw [mtdParseJffs2data]
  cases Loop.run (scanTurn c d dir buf) fuel (0, g) with
  | none => simp
  | some r => simp

/-- The scan of an erase block ends and stays inside exactly if its nodes do. -/
theorem scansInside_iff (c : Cfg) (d : MtdDev) (dir buf : List UInt8) (g : Globals) :
    ScansInside c d dir buf g ↔ NodesInside c d dir buf := by
  have hnext := nextNode_eq c d dir buf
  have hterm := Loop.terminates_iff_acyclic (s := ((0 : UInt32), g)) hnext
    fun s _ _ => s.1.toNat_lt
  simp only [ScansInside, mtdParseJffs2data_eq_ok_iff]
  constructor
  · rintro ⟨fuel, g', hrun⟩
    refine ⟨fun ofs hofs hlt => ?_, hterm.mp ⟨fuel, _, hrun⟩⟩
    obtain ⟨⟨ofs, h⟩, hreach, rfl⟩ := Loop.Visits.reaches (s := ((0 : UInt32), g)) hnext hofs
    obtain ⟨fuel', hrun'⟩ := hreach.exists_run hrun
    -- an access outside would have ended the scan
    rw [← scanNode_ok_iff ofs h]
    cases hnode : scanNode c dir buf ofs h with
    | ok r => exact ⟨r, rfl⟩
    | error e =>
      have hturn : scanTurn c d dir buf (ofs, h) = .inl (.error e) := by
        rw [scanTurn, if_pos hlt, hnode]
      cases Loop.eq_of_run_inl hturn hrun'
  · rintro ⟨hinside, hacyclic⟩
    -- no cycle, so the scan ends, and the turn it ends with reads inside
    obtain ⟨fuel, r, hrun⟩ := hterm.mpr hacyclic
    obtain ⟨⟨ofs, h⟩, hreach, hturn⟩ := Loop.reaches_of_run hrun
    rw [scanTurn] at hturn
    split at hturn
    case isFalse =>
      cases hturn
      exact ⟨fuel, h, hrun⟩
    case isTrue hlt =>
      obtain ⟨r', hr'⟩ := (scanNode_ok_iff ofs h).mpr (hinside _ (hreach.visits hnext) hlt)
      rw [hr'] at hturn
      cases r' with
      | none =>
        cases hturn
        exact ⟨fuel, h, hrun⟩
      | some s => cases hturn

/-! ### A node of length 0 -/

/-- A device of one block of 12 bytes. -/
def tinyBlock : MtdDev :=
  { mtdtype := .other, erasesize := 12, size := 12, bad := fun _ => false
    eraseFault := fun _ => false, writeFault := fun _ => none
    erasesize_pos := by decide, size_dvd := by decide, size_lt := by decide }

/-- The scan of a node whose `totlen` is 0 does not end. -/
theorem zeroTotlen_not_inside :
    ¬ScansInside { endian := .little, sizeBits := 32, le_sizeBits := le_rfl } tinyBlock []
      ([0x85, 0x19] ++ List.replicate 10 0) { lastIno := 0, lastVersion := 0, targetIno := 0 } := by
  rw [scansInside_iff]
  intro h
  have hnext : nextNode { endian := .little, sizeBits := 32, le_sizeBits := le_rfl } tinyBlock []
      ([0x85, 0x19] ++ List.replicate 10 0) 0 = some 0 := by decide
  exact h.acyclic 0 0 .refl hnext .refl

end HandsomeMod.Native.Jffs2
