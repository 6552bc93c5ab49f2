import HandsomeMod.Spec.Jffs2Buffer

/-!
# The bytes of a file in its inode nodes

`add_file` puts together a directory entry and inode nodes that hold the file piece by piece. They
hold all of it exactly if the directory entry fits behind what the block holds already, no read fails
in front of the end of the file, and the numbers in the nodes stay below `2 ^ 32`.
-/

namespace HandsomeMod.Native.Jffs2

open ForStd
open Mtd (MtdDev Fd ReadRes)

variable {c : Cfg} {d : MtdDev} {st : St} {f : File}

/-! ### Files in nodes -/

/-- The data of each node begins where that of the nodes before it ends. -/
def Consecutive : Nat → List RawInode → Prop
  | _, [] => True
  | pos, ri :: ris => ri.offset.toNat = pos ∧ Consecutive (pos + ri.data.length) ris

/-- The nodes hold a file. -/
structure HoldFile (bytes : List UInt8) (ris : List RawInode) : Prop where
  consecutive : Consecutive 0 ris
  offset_lt : ris.Pairwise fun a b => a.offset < b.offset
  version_lt : ris.Pairwise fun a b => a.version < b.version
  size_eq : ∀ ri ∈ ris, ri.csize.toNat = ri.data.length ∧ ri.dsize.toNat = ri.data.length
  data_eq : (ris.map RawInode.data).flatten = bytes

/-- `add_file` ends with a directory entry and nodes that hold the file, and they are in the buffer
    and in the blocks that were written. -/
def StoresFile (c : Cfg) (d : MtdDev) (f : File) (parent : UInt32) (st : St) : Prop :=
  ∃ st' de ris, addFile c d f parent st = .ok st' ∧
    st'.nodes = st.nodes ++ .dirent de :: ris.map .inode ∧ (∀ ri ∈ ris, ri.ino = de.ino) ∧
    HoldFile f.bytes ris ∧
    ∃ o, (st.out.dirent c d.erasesize de).addNodes c d.erasesize (ris.map .inode) = some o ∧
      Holds d o st'

/-! ### The numbers of the nodes -/

section mkFileInode

variable (s : Stat) (inode version offset : UInt32) (data : List UInt8)

@[simp] theorem mkFileInode_ino : (mkFileInode c s inode version offset data).ino = inode := rfl

@[simp] theorem mkFileInode_version :
    (mkFileInode c s inode version offset data).version = version := rfl

@[simp] theorem mkFileInode_offset :
    (mkFileInode c s inode version offset data).offset = offset := rfl

@[simp] theorem mkFileInode_csize :
    (mkFileInode c s inode version offset data).csize = UInt32.ofNat data.length := rfl

@[simp] theorem mkFileInode_dsize :
    (mkFileInode c s inode version offset data).dsize = UInt32.ofNat data.length := rfl

@[simp] theorem mkFileInode_data : (mkFileInode c s inode version offset data).data = data := rfl

end mkFileInode

/-- A list ascends exactly if neighbours do. -/
private theorem pairwise_lt_iff_isChain {α : Type} (key : α → UInt32) (l : List α) :
    l.Pairwise (fun a b => key a < key b) ↔ l.IsChain fun a b => key a < key b := by
  have : Trans (fun a b => key a < key b) (fun a b => key a < key b) fun a b => key a < key b :=
    ⟨fun h h' => UInt32.lt_trans h h'⟩
  exact List.isChain_iff_pairwise.symm

/-- The versions increase as long as they do not wrap. -/
private theorem fileNodes_version_lt (s : Stat) (inode version offset : UInt32)
    (pieces : List (List UInt8)) :
    (fileNodes c s inode version offset pieces).Pairwise (fun a b => a.version < b.version) ↔
      (version + 1).toNat + pieces.length ≤ 2 ^ 32 := by
  rw [pairwise_lt_iff_isChain]
  have hlt := (version + 1).toNat_lt
  -- the version goes up by one with each piece, so only a wrap breaks the order
  induction pieces generalizing version offset with
  | nil =>
    rw [fileNodes, List.length_nil]
    exact ⟨fun _ => Nat.le_of_lt hlt, fun _ => .nil⟩
  | cons piece pieces ih =>
    cases pieces with
    | nil =>
      rw [fileNodes, fileNodes, List.length_singleton]
      exact ⟨fun _ => hlt, fun _ => .singleton _⟩
    | cons piece' pieces =>
      have hnext := (version + 1 + 1).toNat_lt
      have hsucc : (version + 1 + 1).toNat = ((version + 1).toNat + 1) % 2 ^ 32 :=
        UInt32.toNat_add _ _
      have hrest : _ ↔ (version + 1 + 1).toNat + (piece' :: pieces).length ≤ 2 ^ 32 :=
        ih (version + 1) (offset + UInt32.ofNat piece.length) hnext
      rw [fileNodes] at hrest
      rw [fileNodes, fileNodes, List.isChain_cons_cons, hrest, UInt32.lt_iff_toNat_lt]
      simp only [mkFileInode_version, List.length_cons]
      omega

/-- The offsets follow each other as long as they do not wrap. -/
private theorem fileNodes_consecutive (s : Stat) (inode version : UInt32) (pos : Nat)
    (pieces : List (List UInt8)) :
    Consecutive pos (fileNodes c s inode version (UInt32.ofNat pos) pieces) ↔
      pieces = [] ∨ pos + (pieces.dropLast.map List.length).sum < 2 ^ 32 := by
  induction pieces generalizing version pos with
  | nil => exact ⟨fun _ => .inl rfl, fun _ => trivial⟩
  | cons piece pieces ih =>
    -- the offset is stored in 32 bits
    have hpos : (UInt32.ofNat pos).toNat = pos ↔ pos < 2 ^ 32 := by
      rw [UInt32.toNat_ofNat']
      omega
    rw [fileNodes, Consecutive, mkFileInode_offset, mkFileInode_data, ← UInt32.ofNat_add, ih, hpos]
    simp only [reduceCtorEq, false_or]
    cases pieces with
    | nil => simp
    | cons piece' pieces =>
      rw [List.dropLast_cons_cons, List.map_cons, List.sum_cons]
      simp only [reduceCtorEq, false_or]
      omega

/-- Pieces that follow one another ascend if none is empty. -/
theorem Consecutive.offset_lt {pos : Nat} {ris : List RawInode} (h : Consecutive pos ris)
    (hdata : ∀ ri ∈ ris, ri.data ≠ []) : ris.Pairwise fun a b => a.offset < b.offset := by
  rw [pairwise_lt_iff_isChain]
  induction ris generalizing pos with
  | nil => exact .nil
  | cons ri ris ih =>
    obtain ⟨hoffset, hrest⟩ := h
    have htail := ih hrest fun ri' hri' => hdata ri' (List.mem_cons_of_mem ri hri')
    cases ris with
    | nil => exact .singleton ri
    | cons ri' ris =>
      -- the first node has data, so the second one starts behind it
      have hpos := List.length_pos_iff.mpr (hdata ri List.mem_cons_self)
      refine List.isChain_cons_cons.mpr ⟨?_, htail⟩
      rw [UInt32.lt_iff_toNat_lt, hoffset, hrest.1]
      omega

/-- The nodes of a file have its pieces. -/
theorem fileNodes_data (s : Stat) (inode version offset : UInt32)
    (pieces : List (List UInt8)) :
    (fileNodes c s inode version offset pieces).map RawInode.data = pieces := by
  induction pieces generalizing version offset with
  | nil => rfl
  | cons piece pieces ih =>
    rw [fileNodes, List.map_cons, ih]
    rfl

/-- What every node of a file says about itself. -/
theorem mem_fileNodes {s : Stat} {inode version offset : UInt32} {pieces : List (List UInt8)}
    {ri : RawInode} (h : ri ∈ fileNodes c s inode version offset pieces) :
    ri.ino = inode ∧ ri.data ∈ pieces ∧ ri.csize = UInt32.ofNat ri.data.length ∧
      ri.dsize = UInt32.ofNat ri.data.length := by
  induction pieces generalizing version offset with
  | nil => cases h
  | cons piece pieces ih =>
    rw [fileNodes, List.mem_cons] at h
    obtain rfl | h := h
    · exact ⟨rfl, List.mem_cons_self, rfl, rfl⟩
    · obtain ⟨hino, hdata, hsize⟩ := ih h
      exact ⟨hino, List.mem_cons_of_mem piece hdata, hsize⟩

/-! ### Pieces of a file -/

/-- A read that does not fail. -/
def delivers : ReadRes → Bool
  | .short _ => true
  | .eintr => false
  | .eagain => false
  | .error => false

/-- The most that a read of `len` bytes delivers, if it does not fail. -/
def readAtMost (len : Nat) : List ReadRes → Nat
  | .short n :: _ => min (max n 1) len
  | _ => len

/-- The lengths of the pieces of a file of `n` bytes, if no read fails. -/
def pieceLengths (es : Nat) : Nat → Nat → List ReadRes → Nat → List Nat
  | 0, _, _, _ => []
  | fuel + 1, pos, script, n =>
    match roomAt es pos with
    | none => []
    | some pos =>
      let got := min (readAtMost (min (es - pos - sizeofInode) sizeofWbuf) script) n
      if got = 0 then []
      else
        got :: pieceLengths es fuel (behind es (pos + (sizeofInode + got))) script.tail (n - got)

/-- A read that delivers. -/
private theorem readSome_of_delivers {script : List ReadRes}
    (h : ∀ r ∈ script.head?, delivers r = true)
    (len : Nat) (rest : List UInt8) :
    readSome len script rest =
      (rest.take (readAtMost len script), rest.drop (readAtMost len script), script.tail) := by
  cases script with
  | nil => rfl
  | cons r script =>
    cases r with
    | short n => rfl
    | eintr => cases h _ rfl
    | eagain => cases h _ rfl
    | error => cases h _ rfl

/-- A read that fails. -/
theorem readSome_of_fails {script : List ReadRes} {r : ReadRes} (h : delivers r = false) (len : Nat)
    (rest : List UInt8) : readSome len (r :: script) rest = ([], rest, script) := by
  cases r with
  | short n => cases h
  | eintr => rfl
  | eagain => rfl
  | error => rfl

/-- A read that delivers gives a byte at least. -/
private theorem readAtMost_pos {len : Nat} (hlen : 0 < len) (script : List ReadRes) :
    0 < readAtMost len script := by
  unfold readAtMost
  split
  · omega
  · exact hlen

/-- Room for a piece is more than its header and 128 bytes. -/
private theorem roomAt_lt {es pos pos' : Nat} (h : roomAt es pos = some pos') :
    pos' + sizeofInode + 128 < es := by
  have hhead : sizeofInode = 68 := rfl
  rw [roomAt] at h
  split at h
  · cases h
    omega
  · split at h
    · cases h
      omega
    · cases h

/-- The pieces make up the file, up to the bytes left. -/
theorem cutFile_flatten {es fuel pos : Nat} {script : List ReadRes} {rest left : List UInt8}
    {pieces : List (List UInt8)} (h : cutFile es fuel pos script rest = some (pieces, left)) :
    pieces.flatten ++ left = rest ∧ ∀ p ∈ pieces, p ≠ [] ∧ p.length ≤ sizeofWbuf := by
  -- each turn takes a piece off the front of `rest`, or ends
  induction fuel generalizing pos script rest pieces with
  | zero => cases h
  | succ fuel ih =>
    rw [cutFile] at h
    cases hroom : roomAt es pos with
    | none =>
      rw [hroom] at h
      cases h
    | some pos' =>
      simp only [hroom] at h
      have happ := readSome_append (min (es - pos' - sizeofInode) sizeofWbuf) script rest
      have hle := readSome_length_le (min (es - pos' - sizeofInode) sizeofWbuf) script rest
      split at h
      case isTrue =>
        cases h
        exact ⟨rfl, fun p hp => by cases hp⟩
      case isFalse hdata =>
        obtain ⟨⟨pieces', left'⟩, hcut, hp⟩ := Option.map_eq_some_iff.mp h
        cases hp
        obtain ⟨hflat, hpieces⟩ := ih hcut
        refine ⟨?_, fun p hp => ?_⟩
        · rw [List.flatten_cons, List.append_assoc, hflat, happ]
        · obtain rfl | hp := List.mem_cons.mp hp
          · exact ⟨hdata, hle.trans (Nat.min_le_right _ _)⟩
          · exact hpieces p hp

/-- In a block of more than 208 bytes all of the file is cut unless a read fails. -/
theorem cutFile_of_lt {es : Nat} (hes : 208 < es) (fuel pos : Nat) (script : List ReadRes)
    (rest : List UInt8) (hfuel : rest.length < fuel) :
    ∃ pieces left, cutFile es fuel pos script rest = some (pieces, left) ∧
      (left = [] ↔ ∀ r ∈ script.take (pieceLengths es fuel pos script rest.length).length,
        delivers r = true) ∧
      (left = [] → pieces.map List.length = pieceLengths es fuel pos script rest.length) := by
  -- in a block of more than 208 bytes there is always room, so the cut goes on up to the end or a
  -- failed read
  induction fuel generalizing pos script rest with
  | zero => exact absurd hfuel (Nat.not_lt_zero _)
  | succ fuel ih =>
    rw [cutFile, pieceLengths]
    cases hroom : roomAt es pos with
    | none =>
      rw [roomAt, if_pos hes] at hroom
      split at hroom <;> cases hroom
    | some pos' =>
      have hlt := roomAt_lt hroom
      have hlen : 0 < min (es - pos' - sizeofInode) sizeofWbuf :=
        Nat.lt_min.mpr ⟨by omega, by decide⟩
      simp only
      generalize min (es - pos' - sizeofInode) sizeofWbuf = len at hlen ⊢
      by_cases hrest : rest = []
      · -- the end of the file
        have happ := readSome_append len script rest
        rw [hrest, List.append_eq_nil_iff] at happ
        rw [hrest, if_pos happ.1, List.length_nil, Nat.min_zero, if_pos rfl]
        exact ⟨[], [], rfl, by simp, fun _ => rfl⟩
      have hpos := List.length_pos_iff.mpr hrest
      have hat := readAtMost_pos hlen script
      have hgot : min (readAtMost len script) rest.length ≠ 0 := by omega
      rw [if_neg hgot]
      by_cases hhead : ∀ r ∈ script.head?, delivers r = true
      · -- a piece, and the rest of the file
        have hpiece : (rest.take (readAtMost len script)).length =
            min (readAtMost len script) rest.length := List.length_take
        have hne : rest.take (readAtMost len script) ≠ [] := by
          rw [← List.length_pos_iff, hpiece]
          omega
        have hdrop : (rest.drop (readAtMost len script)).length =
            rest.length - min (readAtMost len script) rest.length := by
          rw [List.length_drop]
          omega
        rw [readSome_of_delivers hhead]
        simp only [if_neg hne, hpiece]
        obtain ⟨pieces, left, hcut, hiff, hlens⟩ :=
          ih (behind es (pos' + (sizeofInode + min (readAtMost len script) rest.length)))
            script.tail (rest.drop (readAtMost len script)) (by omega)
        rw [hdrop] at hiff hlens
        refine ⟨_, left, congrArg (Option.map _) hcut, ?_, fun hleft => ?_⟩
        · rw [hiff, List.length_cons]
          cases script with
          | nil => simp
          | cons r script =>
            simp only [List.head?_cons, Option.mem_some_iff, forall_eq'] at hhead
            rw [List.tail_cons, List.take_succ_cons, List.forall_mem_cons]
            exact (and_iff_right hhead).symm
        · simp only [List.map_cons, hpiece, hlens hleft]
      · -- the read fails
        cases script with
        | nil => exact absurd (fun r hr => by cases hr) hhead
        | cons r script =>
          simp only [List.head?_cons, Option.mem_some_iff, forall_eq', Bool.not_eq_true] at hhead
          rw [readSome_of_fails hhead, if_pos rfl]
          refine ⟨[], rest, rfl, ?_, fun hleft => absurd hleft hrest⟩
          simp only [hrest, List.length_cons, List.take_succ_cons, List.forall_mem_cons, hhead,
            Bool.false_eq_true, false_and]

/-- An empty file has no piece. -/
private theorem pieceLengths_nil {es fuel pos : Nat} {script : List ReadRes} :
    pieceLengths es fuel pos script ([] : List UInt8).length = [] := by
  cases fuel with
  | zero => rfl
  | succ fuel =>
    rw [pieceLengths]
    split
    · rfl
    · rw [List.length_nil, Nat.min_zero]
      exact if_pos rfl

/-- In a smaller block there is no room behind a piece. -/
private theorem cutFile_of_le {es fuel pos : Nat} {script : List ReadRes} {rest left : List UInt8}
    {pieces : List (List UInt8)} (hes : es ≤ 208)
    (h : cutFile es fuel pos script rest = some (pieces, left)) : pieces = [] := by
  cases fuel with
  | zero => cases h
  | succ fuel =>
    rw [cutFile] at h
    cases hroom : roomAt es pos with
    | none =>
      rw [hroom] at h
      cases h
    | some pos' =>
      simp only [hroom] at h
      split at h
      case isTrue =>
        cases h
        rfl
      case isFalse =>
        obtain ⟨_, hcut, -⟩ := Option.map_eq_some_iff.mp h
        cases fuel with
        | zero => cases hcut
        | succ fuel =>
          have hhead : sizeofInode = 68 := rfl
          -- after one node the next position has a cleanmarker in front, and then a small block
          -- has no room
          have hbehind : 12 ≤ behind es (pos' + (sizeofInode +
              (readSome (min (es - pos' - sizeofInode) sizeofWbuf) script rest).1.length)) := by
            rw [behind]
            split <;> omega
          rw [cutFile, roomAt, if_neg (by omega), if_neg (by omega)] at hcut
          cases hcut

/-- All of the file is cut, exactly if it ends and no read fails. -/
theorem cutFile_whole_iff {es fuel pos : Nat} {script : List ReadRes} {rest : List UInt8}
    (hfuel : rest.length < fuel) :
    (∃ pieces, cutFile es fuel pos script rest = some (pieces, [])) ↔
      roomAt es pos ≠ none ∧ (rest = [] ∨ 208 < es) ∧
        ∀ r ∈ script.take (pieceLengths es fuel pos script rest.length).length,
          delivers r = true := by
  by_cases hes : 208 < es
  · obtain ⟨pieces, left, hcut, hiff, -⟩ := cutFile_of_lt hes _ pos script _ hfuel
    have hroom : roomAt es pos ≠ none := by
      rw [roomAt, if_pos hes]
      split <;> exact Option.some_ne_none _
    rw [and_iff_right hroom, and_iff_right (.inr hes), ← hiff]
    constructor
    · rintro ⟨pieces', hcut'⟩
      rw [hcut] at hcut'
      cases hcut'
      rfl
    · rintro rfl
      exact ⟨pieces, hcut⟩
  -- in a small block no piece is ever cut, so only the empty file is whole
  · cases fuel with
    | zero => exact absurd hfuel (Nat.not_lt_zero _)
    | succ fuel =>
      constructor
      · rintro ⟨pieces, hcut⟩
        have hflat := (cutFile_flatten hcut).1
        rw [cutFile_of_le (Nat.le_of_not_lt hes) hcut] at hflat
        have hrest : rest = [] := hflat.symm
        refine ⟨fun hroom => ?_, .inl hrest, ?_⟩
        · rw [cutFile, hroom] at hcut
          cases hcut
        · rw [hrest, pieceLengths_nil]
          exact fun r hr => by cases hr
      · rintro ⟨hroom, hrest, -⟩
        obtain ⟨pos', hpos'⟩ := Option.ne_none_iff_exists'.mp hroom
        rw [hrest.resolve_right hes, cutFile, hpos']
        simp only
        rw [if_pos (List.append_eq_nil_iff.mp (readSome_append _ script [])).1]
        exact ⟨[], rfl⟩

/-- The lengths of the pieces can be computed before. -/
theorem cutFile_lengths {es fuel pos : Nat} {script : List ReadRes} {rest : List UInt8}
    {pieces : List (List UInt8)} (hfuel : rest.length < fuel)
    (h : cutFile es fuel pos script rest = some (pieces, [])) :
    pieces.map List.length = pieceLengths es fuel pos script rest.length := by
  by_cases hes : 208 < es
  · obtain ⟨pieces', left, hcut, -, hlens⟩ := cutFile_of_lt hes _ pos script _ hfuel
    rw [h] at hcut
    cases hcut
    exact hlens rfl
  · have hflat := (cutFile_flatten h).1
    have hnil := cutFile_of_le (Nat.le_of_not_lt hes) h
    rw [hnil] at hflat
    have hrest : rest = [] := hflat.symm
    rw [hnil, hrest, pieceLengths_nil]
    rfl

/-! ### Files that are stored -/

/-- The lengths of the pieces of a file behind its directory entry, if no read fails. -/
def File.pieceLengths (c : Cfg) (d : MtdDev) (st : St) (f : File) : List Nat :=
  Jffs2.pieceLengths d.erasesize (f.bytes.length + 1)
    (direntEnd c d.erasesize st.out f.fname.length) f.script f.bytes.length

/-- What a file has to be like: its directory entry fits into the block, there is room for nodes, no
    read fails in front of the end of the file, and the versions and the offsets do not wrap. -/
structure Storable (c : Cfg) (d : MtdDev) (f : File) (st : St) : Prop where
  fits : DirentFits c d.erasesize st.out f.fname.length
  room : roomAt d.erasesize (direntEnd c d.erasesize st.out f.fname.length) ≠ none
  large : f.bytes = [] ∨ 208 < d.erasesize
  reads : ∀ r ∈ f.script.take (f.pieceLengths c d st).length, delivers r = true
  versions : (st.globals.lastVersion + 2).toNat + (f.pieceLengths c d st).length ≤ 2 ^ 32
  offsets : (f.pieceLengths c d st).dropLast.sum < 2 ^ 32

/-- The nodes for the pieces of a file hold it, exactly if no number wraps. -/
theorem holdFile_fileNodes_iff {s : Stat} {inode version : UInt32} {pieces : List (List UInt8)}
    (hpieces : ∀ p ∈ pieces, p ≠ [] ∧ p.length ≤ sizeofWbuf) :
    HoldFile pieces.flatten (fileNodes c s inode version 0 pieces) ↔
      (version + 1).toNat + pieces.length ≤ 2 ^ 32 ∧
        (pieces.map List.length).dropLast.sum < 2 ^ 32 := by
  have hversion := fileNodes_version_lt (c := c) s inode version 0 pieces
  -- the offsets are sums of the lengths before, and wrap as these reach 4 GiB
  have hoffset : Consecutive 0 (fileNodes c s inode version 0 pieces) ↔
      pieces = [] ∨ 0 + (pieces.dropLast.map List.length).sum < 2 ^ 32 :=
    fileNodes_consecutive s inode version 0 pieces
  have hsum : (pieces = [] ∨ 0 + (pieces.dropLast.map List.length).sum < 2 ^ 32) ↔
      (pieces.map List.length).dropLast.sum < 2 ^ 32 := by
    rw [Nat.zero_add, ← List.map_dropLast]
    constructor
    · rintro (rfl | h)
      · decide
      · exact h
    · exact .inr
  rw [hsum] at hoffset
  constructor
  · exact fun h => ⟨hversion.mp h.version_lt, hoffset.mp h.consecutive⟩
  · rintro ⟨hversions, hoffsets⟩
    have hconsecutive := hoffset.mpr hoffsets
    refine ⟨hconsecutive, hconsecutive.offset_lt fun ri hri => ?_, hversion.mpr hversions,
      fun ri hri => ?_, ?_⟩
    · exact (hpieces _ (mem_fileNodes hri).2.1).1
    · obtain ⟨-, hdata, hcsize, hdsize⟩ := mem_fileNodes hri
      have hle := (hpieces _ hdata).2
      have hlt : ri.data.length < 2 ^ 32 := Nat.lt_of_le_of_lt hle (by decide)
      rw [hcsize, hdsize, UInt32.toNat_ofNat', Nat.mod_eq_of_lt hlt]
      exact ⟨rfl, rfl⟩
    · rw [fileNodes_data]

/-- `add_file` stores a file, exactly if it is storable. -/
theorem storesFile_iff {s : Stat} {parent : UInt32} (hint : d.erasesize < 2 ^ 31)
    (hdvd : 4 ∣ d.erasesize) (hbuf : st.buf.length = d.erasesize) (hofs : st.ofs < d.erasesize)
    (hstat : f.stat = some s) (hopens : f.opens = true)
    (hexit : addFile c d f parent st ≠ .error .exit) :
    StoresFile c d f parent st ↔ Storable c d f st := by
  have hout := St.out_holds hbuf (Nat.le_of_lt hofs)
  have hlt : st.out.cur.length < d.erasesize := hout.ofs_eq ▸ hofs
  have hfuel := Nat.lt_succ_self f.bytes.length
  have hversion : st.globals.lastVersion + 1 + 1 = st.globals.lastVersion + 2 :=
    UInt32.add_assoc _ _ _
  constructor
  · rintro ⟨st', de, ris, hok, hnodes, -, hfile, -⟩
    -- without room for the dirent the call leaves the buffer, and it was a good one
    by_cases hfit : DirentFits c d.erasesize st.out f.fname.length
    · obtain ⟨hsome, hnone⟩ := addFile_holds (c := c) parent hint hdvd hout hlt hstat
        hopens hfit
      rw [hok] at hsome hnone
      cases hcut : cutFile d.erasesize (f.bytes.length + 1)
          (direntEnd c d.erasesize st.out f.fname.length) f.script f.bytes with
      | none => exact (hnone hcut).elim
      | some p =>
        obtain ⟨pieces, left⟩ := p
        have hadded := hsome pieces left hcut
        obtain ⟨hflat, hpieces⟩ := cutFile_flatten hcut
        -- the nodes are those of the pieces
        rw [hadded.nodes_eq, List.append_cancel_left_eq, List.cons.injEq] at hnodes
        have hris := List.map_injective_iff.mpr (fun _ _ h => Node.inode.inj h) hnodes.2
        rw [← hris] at hfile
        have hdata := hfile.data_eq
        rw [fileNodes_data] at hdata
        rw [← hdata, List.append_right_eq_self] at hflat
        rw [hflat] at hcut
        rw [← hdata, holdFile_fileNodes_iff hpieces, hversion] at hfile
        obtain ⟨hroom, hlarge, hreads⟩ := (cutFile_whole_iff hfuel).mp ⟨pieces, hcut⟩
        have hlens : pieces.map List.length = f.pieceLengths c d st := cutFile_lengths hfuel hcut
        have hlength : pieces.length = (f.pieceLengths c d st).length := by
          rw [← hlens, List.length_map]
        exact ⟨hfit, hroom, hlarge, hreads, hlength ▸ hfile.1, hlens ▸ hfile.2⟩
    · have hout' := addDirent_outside dtReg parent hint hout hlt hfit
      rw [addFile, hstat] at hok
      obtain ⟨r, hr, -⟩ := bind_ok hok
      rw [hr] at hout'
      exact hout'.elim
  -- the pieces exist by the conditions; what `add_file` writes for them is known
  · intro h
    obtain ⟨pieces, hcut⟩ := (cutFile_whole_iff hfuel).mpr ⟨h.room, h.large, h.reads⟩
    have hlens := cutFile_lengths hfuel hcut
    obtain ⟨hflat, hpieces⟩ := cutFile_flatten hcut
    rw [List.append_nil] at hflat
    obtain ⟨hsome, -⟩ := addFile_holds (c := c) parent hint hdvd hout hlt hstat
      hopens h.fits
    obtain ⟨st', hok, hadded⟩ := (hsome pieces [] hcut).exists_ok hexit
    refine ⟨st', _, _, hok, hadded.nodes_eq, fun ri hri => (mem_fileNodes hri).1, ?_, hadded.holds⟩
    have hlength : pieces.length = (f.pieceLengths c d st).length := by
      rw [File.pieceLengths, ← hlens, List.length_map]
    rw [← hflat, holdFile_fileNodes_iff hpieces, hversion, hlens, hlength]
    exact ⟨h.versions, h.offsets⟩

/-! ### A file in a small flash, and one behind a full block -/

/-- A little-endian machine of 32 bits. -/
def little : Cfg := { endian := .little, sizeBits := 32, le_sizeBits := le_rfl }

/-- A device of two blocks without faults. -/
def plainFlash (es : Nat) (hes : 0 < es) (hlt : es * 2 < 2 ^ 32) : MtdDev :=
  { mtdtype := .other, erasesize := es, size := es * 2, bad := fun _ => false
    eraseFault := fun _ => false, writeFault := fun _ => none
    erasesize_pos := hes, size_dvd := Nat.dvd_mul_right es 2, size_lt := hlt }

def flash256 : MtdDev := plainFlash 256 (by decide) (by decide)

def flash4096 : MtdDev := plainFlash 4096 (by decide) (by decide)

/-- A buffer of which `ofs` bytes are used. -/
def usedBuf (es ofs : Nat) : St :=
  { buf := List.replicate es 0xff, ofs := ofs, mtdofs := 0
    globals := { lastIno := 1, lastVersion := 0, targetIno := 1 }
    fd := { pos := 0, mem := fun _ => 0xff, log := [] }, blocks := [], nodes := [] }

/-- The file `/tmp/a` of three bytes, the first of which comes alone. -/
def shortFile : File :=
  { name := [0x2f, 0x74, 0x6d, 0x70, 0x2f, 0x61]
    stat := some { mode := 0x81a4, atime := 0, ctime := 0, mtime := 0, size := 3 }, opens := true
    bytes := [1, 2, 3], script := [.short 1] }

/-- A file of a few bytes in blocks of 256 bytes. -/
theorem storesFile_iff_shortFile :
    StoresFile little flash256 shortFile 1 (usedBuf 256 0) ↔
      Storable little flash256 shortFile (usedBuf 256 0) := by
  have hok : (addFile little flash256 shortFile 1 (usedBuf 256 0)).isOk = true := by decide +kernel
  refine storesFile_iff (by decide) (by decide) List.length_replicate (by decide) rfl rfl fun h => ?_
  rw [h] at hok
  cases hok

/-- The directory entry of a file does not fit into the last 12 bytes of a block. -/
theorem not_storesFile_shortFile : ¬StoresFile little flash4096 shortFile 1 (usedBuf 4096 4084) := by
  rintro ⟨st', de, ris, hok, -⟩
  have hout : Holds flash4096 (usedBuf 4096 4084).out (usedBuf 4096 4084) :=
    St.out_holds List.length_replicate (by decide)
  have hlen : (usedBuf 4096 4084).out.cur.length = 4084 := hout.ofs_eq.symm
  -- 12 bytes are left in the block, too few for the directory entry
  have hfit : ¬DirentFits little flash4096.erasesize (usedBuf 4096 4084).out
      shortFile.fname.length := by
    have hne : (usedBuf 4096 4084).out.cur ≠ [] := by
      rw [← List.length_pos_iff, hlen]
      decide
    rw [DirentFits, Out.prep, if_neg hne, hlen]
    decide
  obtain ⟨r, hr, -⟩ := bind_ok hok
  have hout' := addDirent_outside dtReg 1 (by decide) hout
    (by rw [hlen]; decide) hfit
  rw [hr] at hout'
  exact hout'

end HandsomeMod.Native.Jffs2
