import HandsomeMod.Spec.Jffs2File

/-!
# The layout of the blocks that `jffs2.c` writes

Behind calls of `add_dir` and `add_file` a block is a clean marker, nodes one after the other, each
filled up to a multiple of 4, and padding. This holds along every run in which each directory entry
fits into the block and no file with data begins with a block.
-/

namespace HandsomeMod.Native.Jffs2

open ForStd
open Mtd (MtdDev Fd ReadRes)

variable {c : Cfg} {d : MtdDev} {es : Nat} {ns : List Node} {o : Out}

/-! ### Well-formed nodes -/

/-- The lengths and the check sums of a node are those of its bytes. -/
def Node.WellFormed (c : Cfg) : Node → Prop
  | .dirent de =>
    de.totlen.toNat = (Node.bytes c (.dirent de)).length ∧ de.nsize.toNat = de.name.length ∧
      de.hdrCrc = crc32 ((de.header c).take 8) ∧
      de.nodeCrc = crc32 ((de.header c).take (sizeofDirent - 8)) ∧ de.nameCrc = crc32 de.name
  | .inode ri =>
    ri.totlen.toNat = (Node.bytes c (.inode ri)).length ∧ ri.csize.toNat = ri.data.length ∧
      ri.dsize.toNat = ri.data.length ∧ ri.hdrCrc = crc32 ((ri.header c).take 8) ∧
      ri.nodeCrc = crc32 ((ri.header c).take (sizeofInode - 8)) ∧ ri.dataCrc = crc32 ri.data

/-- The first 32 bytes of a directory entry. -/
theorem RawDirent.take_header (c : Cfg) (de : RawDirent) :
    (de.header c).take (sizeofDirent - 8) =
      jint16 c jffs2MagicBitmask ++ jint16 c jffs2NodetypeDirent ++ jint32 c de.totlen ++
        jint32 c de.hdrCrc ++ jint32 c de.pino ++ jint32 c de.version ++ jint32 c de.ino ++
        jint32 c de.mctime ++ [de.nsize, de.type, 0, 0] := by
  unfold RawDirent.header
  rw [List.append_assoc _ (jint32 c de.nodeCrc)]
  refine List.take_left' ?_
  simp only [List.length_append, length_jint16, length_jint32, List.length_cons, List.length_nil,
    sizeofDirent]

/-- The first fields of a directory entry. -/
theorem RawDirent.take_header_8 (c : Cfg) (de : RawDirent) :
    (de.header c).take 8 =
      jint16 c jffs2MagicBitmask ++ jint16 c jffs2NodetypeDirent ++ jint32 c de.totlen := by
  have hlen : (jint16 c jffs2MagicBitmask ++ jint16 c jffs2NodetypeDirent ++
      jint32 c de.totlen).length = 8 := by
    simp only [List.length_append, length_jint16, length_jint32]
  unfold RawDirent.header
  simp only [List.append_assoc (_ ++ jint32 c de.totlen)]
  exact List.take_left' hlen

/-- The first fields of an inode. -/
theorem RawInode.take_header_8 (c : Cfg) (ri : RawInode) :
    (ri.header c).take 8 =
      jint16 c jffs2MagicBitmask ++ jint16 c jffs2NodetypeInode ++ jint32 c ri.totlen := by
  have hlen : (jint16 c jffs2MagicBitmask ++ jint16 c jffs2NodetypeInode ++
      jint32 c ri.totlen).length = 8 := by
    simp only [List.length_append, length_jint16, length_jint32]
  unfold RawInode.header
  simp only [List.append_assoc (_ ++ jint32 c ri.totlen)]
  exact List.take_left' hlen

/-- The first 60 bytes of an inode node. -/
theorem RawInode.take_header (c : Cfg) (ri : RawInode) :
    (ri.header c).take (sizeofInode - 8) =
      jint16 c jffs2MagicBitmask ++ jint16 c jffs2NodetypeInode ++ jint32 c ri.totlen ++
        jint32 c ri.hdrCrc ++ jint32 c ri.ino ++ jint32 c ri.version ++ jint32 c ri.mode ++
        jint16 c 0 ++ jint16 c 0 ++ jint32 c ri.isize ++ jint32 c ri.atime ++ jint32 c ri.mtime ++
        jint32 c ri.ctime ++ jint32 c ri.offset ++ jint32 c ri.csize ++ jint32 c ri.dsize ++
        [0, 0] ++ jint16 c 0 := by
  have hsum : 2 + 2 + 4 + 4 + 4 + 4 + 4 + 2 + 2 + 4 + 4 + 4 + 4 + 4 + 4 + 4 + (0 + 1 + 1) + 2 =
      sizeofInode - 8 := rfl
  unfold RawInode.header
  rw [List.append_assoc _ (jint32 c ri.dataCrc)]
  refine List.take_left' ?_
  simp only [List.length_append, length_jint16, length_jint32, List.length_cons, List.length_nil]
  exact hsum

/-- A directory entry is well formed. -/
private theorem mkDirent_wellFormed {name : List UInt8} (hname : name.length ≤ 255) (type : UInt8)
    (pino ino version : UInt32) :
    (Node.dirent (mkDirent c name type pino ino version)).WellFormed c := by
  have hlt : sizeofDirent + name.length < 2 ^ 32 := by
    have hhead : sizeofDirent = 40 := rfl
    omega
  refine ⟨?_, ?_, ?_, ?_, rfl⟩
  · rw [Node.bytes, List.length_append, RawDirent.length_header]
    exact UInt32.toNat_ofNat_of_lt' hlt
  · exact UInt8.toNat_ofNat_of_lt' (Nat.lt_succ_of_le hname)
  · rw [RawDirent.take_header_8]
    simp only [mkDirent, RawDirent.take_header_8]
  · rw [RawDirent.take_header]
    simp only [mkDirent, RawDirent.take_header]

/-- An inode with its checksums is well formed. -/
private theorem sealed_wellFormed {ri : RawInode}
    (htotlen : ri.totlen = UInt32.ofNat (sizeofInode + ri.data.length))
    (hcsize : ri.csize = UInt32.ofNat ri.data.length) (hdsize : ri.dsize = UInt32.ofNat ri.data.length)
    (hcrc : ri.dataCrc = crc32 ri.data) (hlen : sizeofInode + ri.data.length < 2 ^ 32) :
    (Node.inode (ri.sealed c)).WellFormed c := by
  refine ⟨?_, ?_, ?_, ?_, ?_, hcrc⟩
  · rw [Node.bytes, List.length_append, RawInode.length_header]
    exact (congrArg UInt32.toNat htotlen).trans (UInt32.toNat_ofNat_of_lt' hlen)
  · exact (congrArg UInt32.toNat hcsize).trans
      (UInt32.toNat_ofNat_of_lt' (Nat.lt_of_le_of_lt (Nat.le_add_left _ _) hlen))
  · exact (congrArg UInt32.toNat hdsize).trans
      (UInt32.toNat_ofNat_of_lt' (Nat.lt_of_le_of_lt (Nat.le_add_left _ _) hlen))
  · rw [RawInode.take_header_8]
    simp only [RawInode.sealed, RawInode.take_header_8]
  · rw [RawInode.take_header]
    simp only [RawInode.sealed, RawInode.take_header]

/-- The inode of a directory is well formed. -/
private theorem mkDirInode_wellFormed (inode : UInt32) :
    (Node.inode (mkDirInode c inode)).WellFormed c := by
  have hcrc : 0 = crc32 [] := by decide
  have hlen : sizeofInode + ([] : List UInt8).length < 2 ^ 32 := by decide
  exact sealed_wellFormed rfl rfl rfl hcrc hlen

/-- An inode with a piece of a file is well formed. -/
private theorem mkFileInode_wellFormed {s : Stat} {inode version offset : UInt32}
    {data : List UInt8}
    (hlen : data.length ≤ sizeofWbuf) :
    (Node.inode (mkFileInode c s inode version offset data)).WellFormed c :=
  sealed_wellFormed rfl rfl rfl rfl (Nat.lt_of_le_of_lt (Nat.add_le_add_left hlen _) (by decide))

/-! ### Blocks of nodes -/

/-- A clean marker and nodes. -/
def body (c : Cfg) (ns : List Node) : List UInt8 :=
  cleanmarker c ++ (ns.map fun n => fillTo 4 (n.bytes c)).flatten

/-- The nodes lie in one block: each begins behind the clean marker at a multiple of 4, and ends
    inside. -/
structure Inside (c : Cfg) (es : Nat) (ns : List Node) : Prop where
  body_le : (body c ns).length ≤ es
  node : ∀ pre n post, ns = pre ++ n :: post →
    4 ∣ (body c pre).length ∧ 12 ≤ (body c pre).length ∧
      (body c pre).length + (n.bytes c).length ≤ es ∧
      ((body c ns).drop (body c pre).length).take (n.bytes c).length = n.bytes c

/-- The nodes of two parts of a block follow one another. -/
private theorem body_append (ns ns' : List Node) :
    body c (ns ++ ns') = body c ns ++ (ns'.map fun n => fillTo 4 (n.bytes c)).flatten := by
  rw [body, List.map_append, List.flatten_append, ← List.append_assoc]
  rfl

/-- One more node in a block. -/
private theorem body_concat (ns : List Node) (n : Node) :
    body c (ns ++ [n]) = body c ns ++ fillTo 4 (n.bytes c) := by
  rw [body_append, List.map_singleton, List.flatten_singleton]

/-- The nodes of a block are aligned. -/
private theorem length_body_mod (ns : List Node) : (body c ns).length % 4 = 0 := by
  rw [body, List.length_append, length_cleanmarker]
  have hsum : ((ns.map fun n => fillTo 4 (n.bytes c)).flatten).length % 4 = 0 := by
    induction ns with
    | nil => rfl
    | cons n ns ih =>
      have hn := length_fillTo_mod (by decide : 0 < 4) (n.bytes c)
      rw [List.map_cons, List.flatten_cons, List.length_append]
      omega
  omega

/-- A block begins with the clean marker. -/
private theorem le_length_body (ns : List Node) : 12 ≤ (body c ns).length := by
  rw [body, List.length_append, length_cleanmarker]
  exact Nat.le_add_right _ _

/-- The nodes are inside of a block that their bytes fit. -/
private theorem inside_of_le (h : (body c ns).length ≤ es) : Inside c es ns := by
  refine ⟨h, ?_⟩
  rintro pre n post rfl
  have hsplit : body c (pre ++ n :: post) = body c pre ++ (n.bytes c ++
      (List.replicate ((4 - (n.bytes c).length % 4) % 4) 0xff ++
        (post.map fun n => fillTo 4 (n.bytes c)).flatten)) := by
    rw [body_append, List.map_cons, List.flatten_cons, fillTo, List.append_assoc]
  rw [hsplit] at h ⊢
  refine ⟨Nat.dvd_of_mod_eq_zero (length_body_mod pre), le_length_body pre, ?_, ?_⟩
  · rw [List.length_append, List.length_append] at h
    omega
  · rw [List.drop_left, List.take_left]

/-! ### Outputs that are laid out -/

/-- The full blocks of an output hold these nodes, and the block in the making those. -/
structure LaidAs (c : Cfg) (es : Nat) (full : List (List Node)) (cur : List Node) (o : Out) :
    Prop where
  blocks_eq : o.blocks = full.map fun ns => fillTo es (body c ns)
  full_le : ∀ ns ∈ full, (body c ns).length ≤ es
  cur_eq : o.cur = body c cur ∨ o.cur = [] ∧ cur = []
  cur_lt : o.cur.length < es

/-- The output is laid out, and holds these nodes. -/
def Laid (c : Cfg) (es : Nat) (ns : List Node) (o : Out) : Prop :=
  ∃ full cur, ns = full.flatten ++ cur ∧ LaidAs c es full cur o

/-- Before the first node nothing is laid out. -/
private theorem laid_start (hes : 0 < es) : Laid c es [] ⟨[], []⟩ :=
  ⟨[], [], rfl, rfl, fun ns hns => (by cases hns), .inr ⟨rfl, rfl⟩, hes⟩

/-- A new block is laid out with its clean marker. -/
theorem Laid.prep (hes : 12 < es) (h : Laid c es ns o) : Laid c es ns (o.prep c) := by
  obtain ⟨full, cur, hns, hlaid⟩ := h
  rw [Out.prep]
  split
  case isTrue hnil =>
    obtain hcur | ⟨-, hcur⟩ := hlaid.cur_eq
    · have hle := le_length_body (c := c) cur
      rw [← hcur, hnil] at hle
      exact absurd hle (by decide)
    -- an empty block gets its marker
    · refine ⟨full, cur, hns, hlaid.blocks_eq, hlaid.full_le, .inl ?_, ?_⟩
      · rw [hcur, body, List.map_nil, List.flatten_nil, List.append_nil]
      · show (cleanmarker c).length < es
        rw [length_cleanmarker]
        exact hes
  case isFalse => exact ⟨full, cur, hns, hlaid⟩

/-- Behind `prep_eraseblock` the block is not empty. -/
private theorem prep_ne_nil (c : Cfg) (o : Out) : (o.prep c).cur ≠ [] := by
  rw [Out.prep]
  split
  · rw [← List.length_pos_iff]
    show 0 < (cleanmarker c).length
    rw [length_cleanmarker]
    decide
  · assumption

/-- Padding the block keeps the output laid out. -/
theorem Laid.pad_self (h : Laid c es ns o) : Laid c es ns (o.pad es es) := by
  obtain ⟨full, cur, hns, hlaid⟩ := h
  have hlt := hlaid.cur_lt
  by_cases hnil : o.cur = []
  · -- nothing to pad
    have hfill : fillTo es o.cur = o.cur := by
      rw [hnil]
      exact fillTo_of_dvd (Nat.zero_mod es)
    rw [Out.pad, hfill, if_neg (Nat.ne_of_lt hlt)]
    exact ⟨full, cur, hns, hlaid⟩
  -- a block with content is closed, and its nodes go to the full ones
  · have hcur := hlaid.cur_eq.resolve_right fun h => hnil h.1
    rw [Out.pad, if_pos (length_fillTo_of_lt (List.length_pos_iff.mpr hnil) hlt)]
    refine ⟨full ++ [cur], [], ?_, ?_, ?_, .inr ⟨rfl, rfl⟩, ?_⟩
    · rw [hns, List.flatten_append, List.flatten_singleton, List.append_nil]
    · rw [hlaid.blocks_eq, List.map_append, List.map_singleton, hcur]
    · intro ns hns
      obtain hns | hns := List.mem_append.mp hns
      · exact hlaid.full_le ns hns
      · rw [List.mem_singleton.mp hns, ← hcur]
        exact Nat.le_of_lt hlt
    · exact Nat.lt_of_le_of_lt (Nat.zero_le _) hlt

/-- A node that fits into a block with a clean marker keeps the output laid out. -/
theorem Laid.put {n : Node} (hdvd : 4 ∣ es) (h : Laid c es ns o) (hne : o.cur ≠ [])
    (hfit : o.cur.length + (n.bytes c).length ≤ es) :
    Laid c es (ns ++ [n]) ((o.put (n.bytes c)).pad es 4) := by
  obtain ⟨full, cur, hns, hlaid⟩ := h
  have hcur := hlaid.cur_eq.resolve_right fun h => hne h.1
  have hes := hlaid.cur_lt
  have hput : (o.put (n.bytes c)).cur = body c cur ++ n.bytes c := by
    rw [Out.put, hcur]
  -- the nodes before end at a multiple of four, so padding the block is padding the node
  have hfill : fillTo 4 (o.put (n.bytes c)).cur = body c (cur ++ [n]) := by
    have hmod := length_body_mod (c := c) cur
    have hlen : (body c cur ++ n.bytes c).length % 4 = (n.bytes c).length % 4 := by
      rw [List.length_append]
      omega
    rw [hput, body_concat, fillTo, fillTo, hlen, List.append_assoc]
  have hle : (body c (cur ++ [n])).length ≤ es := by
    rw [← hfill]
    refine length_fillTo_le (by decide) hdvd ?_
    rw [hput, ← hcur, List.length_append]
    exact hfit
  have hns' : ns ++ [n] = full.flatten ++ (cur ++ [n]) := by rw [hns, List.append_assoc]
  rw [Out.pad, hfill]
  split
  -- the node closes the block exactly
  case isTrue hfull =>
    have hself : fillTo es (body c (cur ++ [n])) = body c (cur ++ [n]) :=
      fillTo_of_dvd (by rw [hfull, Nat.mod_self])
    refine ⟨full ++ [cur ++ [n]], [], ?_, ?_, ?_, .inr ⟨rfl, rfl⟩, ?_⟩
    · rw [hns', List.flatten_append, List.flatten_singleton, List.append_nil]
    · rw [List.map_append, List.map_singleton, hself, ← hlaid.blocks_eq]
      rfl
    · intro ns hns
      obtain hns | hns := List.mem_append.mp hns
      · exact hlaid.full_le ns hns
      · rw [List.mem_singleton.mp hns]
        exact hle
    · exact Nat.lt_of_le_of_lt (Nat.zero_le _) hes
  case isFalse hnot =>
    exact ⟨full, cur ++ [n], hns', hlaid.blocks_eq, hlaid.full_le, .inl rfl,
      Nat.lt_of_le_of_ne hle hnot⟩

/-- A directory entry that fits is laid out. -/
theorem Laid.dirent {name : List UInt8} (g : Globals) (type : UInt8) (parent : UInt32)
    (hdvd : 4 ∣ es) (hes : 12 < es) (hname : name.length ≤ 255)
    (hfit : DirentFits c es o name.length) (h : Laid c es ns o) :
    Laid c es (ns ++ [.dirent (g.nextDirent c name type parent)])
      (o.dirent c es (g.nextDirent c name type parent)) := by
  have hshown : (g.nextDirent c name type parent).shown c =
      Node.bytes c (.dirent (g.nextDirent c name type parent)) := by
    refine List.take_of_length_le ?_
    have hnsize : (g.nextDirent c name type parent).nsize.toNat = name.length :=
      UInt8.toNat_ofNat_of_lt' (Nat.lt_succ_of_le hname)
    rw [List.length_append, RawDirent.length_header, hnsize]
    exact Nat.le_refl _
  rw [Out.dirent, hshown]
  refine (h.prep hes).put hdvd (prep_ne_nil c o) ?_
  rw [Node.bytes, List.length_append, RawDirent.length_header]
  exact hfit

/-- The inode of a directory is laid out. -/
theorem Laid.dirInode {ri : RawInode} (hdvd : 4 ∣ es) (hes : 12 + sizeofInode ≤ es)
    (hdata : ri.data = []) (h : Laid c es ns o) :
    Laid c es (ns ++ [.inode ri]) (o.dirInode c es ri) := by
  have hhead : sizeofInode = 68 := rfl
  have hbytes : (Node.bytes c (.inode ri)).length = sizeofInode := by
    rw [Node.bytes, hdata, List.append_nil, ri.length_header]
  obtain ⟨_, _, _, hlaid⟩ := id h
  have hlt := hlaid.cur_lt
  rw [Out.dirInode]
  -- the inode goes behind a new cleanmarker, or into the block at hand
  split
  case isTrue =>
    refine (h.pad_self.prep (by omega)).put hdvd (prep_ne_nil c _) ?_
    rw [hbytes, Out.prep, if_pos (Out.cur_pad_self (by omega) (Nat.le_of_lt hlt))]
    show (cleanmarker c).length + sizeofInode ≤ es
    rw [length_cleanmarker]
    exact hes
  case isFalse hroom =>
    refine (h.prep (by omega)).put hdvd (prep_ne_nil c _) ?_
    rw [hbytes, Out.prep]
    split
    · show (cleanmarker c).length + sizeofInode ≤ es
      rw [length_cleanmarker]
      exact hes
    · omega

/-- Making room lays out no node. -/
theorem Laid.room {o' : Out} (h : Laid c es ns o) (hroom : o.room c es = some o') :
    Laid c es ns o' := by
  rw [Out.room, length_cleanmarker] at hroom
  split at hroom
  case isTrue =>
    cases hroom
    exact h
  case isFalse =>
    split at hroom
    case isTrue =>
      cases hroom
      exact h.pad_self.prep (by omega)
    case isFalse => cases hroom

/-- Where there is room, a block is not begun with a node. -/
private theorem room_ne_nil {o' : Out} (hne : o.cur ≠ []) (hroom : o.room c es = some o') :
    o'.cur ≠ [] := by
  rw [Out.room] at hroom
  split at hroom
  case isTrue =>
    cases hroom
    exact hne
  case isFalse =>
    split at hroom
    case isTrue =>
      cases hroom
      exact prep_ne_nil c _
    case isFalse => cases hroom

/-- The nodes of a file keep the output laid out, if the file does not begin with a block. -/
theorem Laid.fileNodes {s : Stat} {inode version offset : UInt32} {fuel : Nat}
    {script : List ReadRes} {rest left : List UInt8} {pieces : List (List UInt8)} {o' : Out}
    (hdvd : 4 ∣ es) (h : Laid c es ns o) (hne : o.cur ≠ [] ∨ pieces = [])
    (hcut : cutFile es fuel o.cur.length script rest = some (pieces, left))
    (hadd : o.addNodes c es ((fileNodes c s inode version offset pieces).map .inode) = some o') :
    Laid c es (ns ++ (Jffs2.fileNodes c s inode version offset pieces).map .inode) o' := by
  -- the cut and the writing of its nodes go through the same blocks
  induction fuel generalizing o ns script rest version offset pieces with
  | zero => cases hcut
  | succ fuel ih =>
    obtain ⟨_, _, _, hlaid⟩ := id h
    have hlen := Out.length_room_eq (c := c) hlaid.cur_lt
    rw [cutFile, ← hlen] at hcut
    cases hroom : o.room c es with
    | none =>
      rw [hroom] at hcut
      cases hcut
    | some o₁ =>
      have h₁ := h.room hroom
      have hroomy := Out.length_room (Nat.le_of_lt hlaid.cur_lt) hroom
      simp only [hroom, Option.map_some] at hcut
      have hle := readSome_length_le (min (es - o₁.cur.length - sizeofInode) sizeofWbuf) script rest
      split at hcut
      case isTrue =>
        cases hcut
        rw [Jffs2.fileNodes, List.map_nil, Out.addNodes, hroom] at hadd
        cases hadd
        rw [Jffs2.fileNodes, List.map_nil, List.append_nil]
        exact h₁
      -- the node of this piece fits into the room that was made, and the rest is cut behind it
      case isFalse hdata =>
        obtain ⟨⟨pieces', left'⟩, hcut', hp⟩ := Option.map_eq_some_iff.mp hcut
        cases hp
        have hne₁ := room_ne_nil (hne.resolve_right (List.cons_ne_nil _ _)) hroom
        generalize readSome (min (es - o₁.cur.length - sizeofInode) sizeofWbuf) script rest = r
          at hdata hle hcut' hadd ⊢
        have hpos := List.length_pos_iff.mpr hdata
        have hbytes : (Node.bytes c (.inode (mkFileInode c s inode (version + 1) offset r.1))).length =
            sizeofInode + r.1.length := by
          rw [Node.bytes, List.length_append, RawInode.length_header, mkFileInode_data]
        have hfit : o₁.cur.length + (sizeofInode + r.1.length) ≤ es := by omega
        have hmarker : 12 < es := by omega
        have hnode := Out.length_node (c := c) hdvd hmarker (hbytes ▸ hfit) (by omega)
        have hlaid' := (h₁.put hdvd hne₁ (hbytes ▸ hfit)).prep hmarker
        rw [hbytes] at hnode
        rw [Jffs2.fileNodes, List.map_cons] at hadd ⊢
        rw [Out.addNodes, hroom] at hadd
        rw [← hnode.2] at hcut'
        rw [List.append_cons]
        exact ih hlaid' (.inl (prep_ne_nil c _)) hcut' hadd

/-- The nodes of a file are well formed. -/
private theorem fileNodes_wellFormed {s : Stat} {inode version offset : UInt32}
    {pieces : List (List UInt8)} (hpieces : ∀ p ∈ pieces, p.length ≤ sizeofWbuf) :
    ∀ ri ∈ fileNodes c s inode version offset pieces, (Node.inode ri).WellFormed c := by
  induction pieces generalizing version offset with
  | nil => exact fun ri hri => by cases hri
  | cons p pieces ih =>
    intro ri hri
    rw [fileNodes, List.mem_cons] at hri
    obtain rfl | hri := hri
    · exact mkFileInode_wellFormed (hpieces p List.mem_cons_self)
    · exact ih (fun p hp => hpieces p (List.mem_cons_of_mem _ hp)) ri hri

/-! ### Calls -/

/-- A call of `add_dir` or of `add_file`. -/
inductive Call where
  | dir (name : List UInt8) (parent : UInt32)
  | file (f : File) (parent : UInt32)

/-- The name in the directory entry. -/
def Call.name : Call → List UInt8
  | .dir name _ => name
  | .file f _ => f.fname

def Call.run (c : Cfg) (d : MtdDev) (st : St) : Call → Except Fault St
  | .dir name parent => (addDir c d name parent st).map Prod.snd
  | .file f parent => addFile c d f parent st

/-- No inode node comes behind the directory entry of the file. -/
def File.YieldsNothing (f : File) : Prop :=
  f.opens = false ∨ f.bytes = [] ∨ ∃ r ∈ f.script.head?, delivers r = false

/-- The directory entry fits into the block, and does not fill it up if inode nodes of a file come
    behind it. -/
def Call.Fits (c : Cfg) (d : MtdDev) (st : St) : Call → Prop
  | .dir name _ => DirentFits c d.erasesize st.out name.length
  | .file f _ =>
    f.stat.isSome = true →
      DirentFits c d.erasesize st.out f.fname.length ∧
        (direntEnd c d.erasesize st.out f.fname.length ≠ 0 ∨ f.YieldsNothing)

/-- The nodes are well-formed and lie in blocks of a clean marker, nodes and padding. -/
structure LaidOut (c : Cfg) (d : MtdDev) (st : St) : Prop where
  length_buf : st.buf.length = d.erasesize
  ofs_lt : st.ofs < d.erasesize
  wellFormed : ∀ n ∈ st.nodes, n.WellFormed c
  laid : ∃ full cur, st.nodes = full.flatten ++ cur ∧
    (∀ ns ∈ full ++ [cur], Inside c d.erasesize ns) ∧
    st.blocks = full.map (fun ns => fillTo d.erasesize (body c ns)) ∧
    (st.buf.take st.ofs = body c cur ∨ st.ofs = 0 ∧ cur = [])

/-- The invariant: the buffer holds an output that is laid out. -/
structure Inv (c : Cfg) (d : MtdDev) (st : St) : Prop where
  holds : Holds d st.out st
  laid : Laid c d.erasesize st.nodes st.out
  wellFormed : ∀ n ∈ st.nodes, n.WellFormed c

variable {st : St}

/-- A state holds one output only. -/
theorem Holds.out_eq {o : Out} (h : Holds d o st) : st.out = o := by
  rw [St.out, h.take_eq, h.blocks_eq]

/-- A state that holds nodes which are laid out meets the invariant. -/
theorem Inv.of_holds {o : Out} (h : Holds d o st) (hlaid : Laid c d.erasesize st.nodes o)
    (hwf : ∀ n ∈ st.nodes, n.WellFormed c) : Inv c d st := by
  have hout := h.out_eq
  rw [← hout] at h hlaid
  exact ⟨h, hlaid, hwf⟩

/-- The invariant says that all nodes are laid out. -/
theorem Inv.laidOut (hes : 12 ≤ d.erasesize) (h : Inv c d st) : LaidOut c d st := by
  obtain ⟨full, cur, hns, hlaid⟩ := h.laid
  refine ⟨h.holds.length_buf, ?_, h.wellFormed, full, cur, hns, fun ns hns => ?_, hlaid.blocks_eq, ?_⟩
  · rw [h.holds.ofs_eq]
    exact hlaid.cur_lt
  -- a finished block is inside, the last one is the buffer or a cleanmarker alone
  · obtain hns | hns := List.mem_append.mp hns
    · exact inside_of_le (hlaid.full_le ns hns)
    · rw [List.mem_singleton.mp hns]
      obtain hcur | ⟨-, rfl⟩ := hlaid.cur_eq
      · exact inside_of_le (hcur ▸ Nat.le_of_lt hlaid.cur_lt)
      · refine inside_of_le ?_
        rw [body, List.map_nil, List.flatten_nil, List.append_nil, length_cleanmarker]
        exact hes
  · obtain hcur | ⟨hnil, rfl⟩ := hlaid.cur_eq
    · exact .inl hcur
    · refine .inr ⟨?_, rfl⟩
      rw [h.holds.ofs_eq, hnil]
      rfl

/-- A file of which nothing is read has no piece. -/
private theorem cutFile_of_yieldsNothing {f : File} {fuel pos : Nat} {pieces : List (List UInt8)}
    {left : List UInt8} (h : f.bytes = [] ∨ ∃ r ∈ f.script.head?, delivers r = false)
    (hcut : cutFile es fuel pos f.script f.bytes = some (pieces, left)) : pieces = [] := by
  cases fuel with
  | zero => cases hcut
  | succ fuel =>
    rw [cutFile] at hcut
    cases hroom : roomAt es pos with
    | none =>
      rw [hroom] at hcut
      cases hcut
    | some pos' =>
      -- an empty file and a first read that fails both deliver nothing
      have hnil : (readSome (min (es - pos' - sizeofInode) sizeofWbuf) f.script f.bytes).1 = [] := by
        obtain hbytes | ⟨r, hr, hfails⟩ := h
        · rw [hbytes]
          exact (List.append_eq_nil_iff.mp (readSome_append _ f.script [])).1
        · obtain ⟨script, hscript⟩ := List.head?_eq_some_iff.mp hr
          rw [hscript, readSome_of_fails hfails]
      simp only [hroom, hnil, if_true] at hcut
      cases hcut
      rfl

/-- `add_file` keeps the invariant. -/
private theorem addFile_keeps {f : File} {parent : UInt32} (hes : 4096 ≤ d.erasesize)
    (hint : d.erasesize < 2 ^ 31) (hdvd : 4 ∣ d.erasesize) (hname : f.fname.length ≤ 255)
    (hfits : (Call.file f parent).Fits c d st) (h : Inv c d st) :
    Ensures (· = Fault.exit) (Inv c d) (addFile c d f parent st) := by
  obtain ⟨_, _, _, hlaid⟩ := h.laid
  cases hstat : f.stat with
  | none =>
    rw [addFile, hstat]
    exact h
  | some s =>
    obtain ⟨hfit, hend⟩ := hfits (by rw [hstat]; rfl)
    have hdirent := h.laid.dirent st.globals dtReg parent hdvd
      (by omega) hname hfit
    have hwf := mkDirent_wellFormed (c := c) hname dtReg parent (st.globals.lastIno + 1)
      st.globals.lastVersion
    cases hopens : f.opens with
    -- the file cannot be opened: its directory entry stands alone
    | false =>
      rw [addFile, hstat]
      simp only [hopens]
      refine (addDirent_holds _ _ hint hdvd h.holds hlaid.cur_lt hfit).bind fun r hr => ?_
      obtain ⟨_, _, hnodes, h₁⟩ := hr
      refine Inv.of_holds h₁ (hnodes ▸ hdirent) ?_
      rw [hnodes, List.forall_mem_append, List.forall_mem_singleton]
      exact ⟨h.wellFormed, hwf⟩
    | true =>
      obtain ⟨pieces, left, hcut, -⟩ := cutFile_of_lt (by omega : 208 < d.erasesize) _
        (direntEnd c d.erasesize st.out f.fname.length) f.script _ (Nat.lt_succ_self f.bytes.length)
      have hadded := (addFile_holds (c := c) parent hint hdvd h.holds hlaid.cur_lt hstat
        hopens hfit).1 pieces left hcut
      obtain ⟨hlen, -⟩ := Out.length_dirent st.globals dtReg parent hdvd hfit
      -- the first node must not stand where a cleanmarker is missing
      have hne : (st.out.dirent c d.erasesize (st.globals.nextDirent c f.fname dtReg parent)).cur ≠ [] ∨
          pieces = [] := by
        obtain hend | hnothing := hend
        · rw [← hlen] at hend
          exact .inl fun hnil => hend (congrArg List.length hnil)
        · refine .inr (cutFile_of_yieldsNothing (hnothing.resolve_left ?_) hcut)
          rw [hopens]
          exact Bool.noConfusion
      rw [← hlen] at hcut
      refine hadded.mono fun st' hst' => ?_
      obtain ⟨o', hadd, hholds⟩ := hst'.holds
      refine Inv.of_holds hholds ?_ ?_
      · rw [hst'.nodes_eq, List.append_cons]
        exact hdirent.fileNodes hdvd hne hcut hadd
      · rw [hst'.nodes_eq, List.forall_mem_append, List.forall_mem_cons, List.forall_mem_map]
        exact ⟨h.wellFormed, hwf, fileNodes_wellFormed fun p hp => ((cutFile_flatten hcut).2 p hp).2⟩

/-- `add_dir` keeps the invariant. -/
private theorem addDir_keeps {name : List UInt8} {parent : UInt32} (hes : 4096 ≤ d.erasesize)
    (hint : d.erasesize < 2 ^ 31) (hdvd : 4 ∣ d.erasesize) (hname : name.length ≤ 255)
    (hfit : DirentFits c d.erasesize st.out name.length) (h : Inv c d st) :
    Ensures (· = Fault.exit) (fun r => Inv c d r.2) (addDir c d name parent st) := by
  obtain ⟨_, _, _, hlaid⟩ := h.laid
  have hhead : sizeofInode = 68 := rfl
  have hmarker : (cleanmarker c).length + sizeofInode ≤ d.erasesize := by
    rw [length_cleanmarker]
    omega
  -- the entry, and behind it the inode
  have hdirent := h.laid.dirent st.globals dtDir parent hdvd
    (by omega) hname hfit
  have hdata : (mkDirInode c (st.globals.lastIno + 1)).data = [] := rfl
  have hinode := hdirent.dirInode hdvd (by omega) hdata
  refine (addDir_holds hint hdvd hmarker h.holds hlaid.cur_lt hfit).mono
    fun r ⟨_, _, hnodes, hholds⟩ => ?_
  refine Inv.of_holds hholds ?_ ?_
  · rw [hnodes, List.append_cons]
    exact hinode
  · rw [hnodes, List.forall_mem_append, List.forall_mem_cons, List.forall_mem_singleton]
    exact ⟨h.wellFormed, mkDirent_wellFormed hname _ _ _ _, mkDirInode_wellFormed _⟩

/-- Every call keeps the invariant. -/
theorem Call.run_keeps {call : Call} (hes : 4096 ≤ d.erasesize) (hint : d.erasesize < 2 ^ 31)
    (hdvd : 4 ∣ d.erasesize) (hname : call.name.length ≤ 255) (hfits : call.Fits c d st)
    (h : Inv c d st) : Ensures (· = Fault.exit) (Inv c d) (call.run c d st) := by
  cases call with
  -- the inode number that is returned does not matter here
  | dir name parent =>
    have hkeeps : Ensures (· = Fault.exit) (fun r => Inv c d r.2) (addDir c d name parent st) :=
      addDir_keeps hes hint hdvd hname hfits h
    rw [Call.run]
    cases hr : addDir c d name parent st with
    | error e =>
      rw [hr] at hkeeps
      exact hkeeps
    | ok r =>
      rw [hr] at hkeeps
      exact hkeeps
  | file f parent => exact addFile_keeps hes hint hdvd hname hfits h

/-- The state that `mtd_replace_jffs2` and `mtd_write_jffs2` begin with. -/
def St.empty (buf : List UInt8) (mtdofs : Nat) (g : Globals) (fd : Fd) : St :=
  { buf := buf, ofs := 0, mtdofs := mtdofs, globals := g, fd := fd, blocks := [], nodes := [] }

/-- The empty buffer meets the invariant. -/
theorem inv_empty (c : Cfg) {buf : List UInt8} (hbuf : buf.length = d.erasesize) (mtdofs : Nat)
    (g : Globals) (fd : Fd) : Inv c d (St.empty buf mtdofs g fd) := by
  refine ⟨St.out_holds hbuf (Nat.zero_le _), ?_, fun n hn => by cases hn⟩
  exact laid_start d.erasesize_pos

/-- Along a run of calls that fit, the nodes are laid out in blocks. -/
theorem calls_laidOut {buf : List UInt8} {mtdofs : Nat} {g : Globals} {fd : Fd} {calls : List Call}
    (hes : 4096 ≤ d.erasesize) (hint : d.erasesize < 2 ^ 31) (hdvd : 4 ∣ d.erasesize)
    (hbuf : buf.length = d.erasesize) (hname : ∀ call ∈ calls, call.name.length ≤ 255)
    (hfits : Meets (Call.run c d) (fun st call => call.Fits c d st) (St.empty buf mtdofs g fd) calls) :
    Ensures (· = Fault.exit) (LaidOut c d) (calls.foldlM (Call.run c d) (St.empty buf mtdofs g fd)) := by
  have hrun := (hfits.and_forall hname).ensures
    (fun _ _ hinv hcall => Call.run_keeps hes hint hdvd hcall.1 hcall.2 hinv)
    (inv_empty c hbuf mtdofs g fd)
  exact hrun.mono fun _ h => h.laidOut (by omega)

/-! ### The end of the file system -/

/-- The nodes lie in whole blocks, and behind these comes a block with the end marker. -/
structure Ended (c : Cfg) (d : MtdDev) (st : St) : Prop where
  wellFormed : ∀ n ∈ st.nodes, n.WellFormed c
  laid : ∃ full : List (List Node), st.nodes = full.flatten ∧ (∀ ns ∈ full, Inside c d.erasesize ns) ∧
    st.blocks = full.map (fun ns => fillTo d.erasesize (body c ns)) ++
      [fillTo d.erasesize jffs2Eof]

/-- The end marker begins a block of its own. -/
private theorem addEof_ended (hes : 4096 ≤ d.erasesize) (h : Inv c d st) :
    Ensures (· = Fault.exit) (Ended c d) (addEof c d st) := by
  have hpos := d.erasesize_pos
  have hlen : jffs2Eof.length = 4 := rfl
  have hnil := Out.cur_pad_self hpos h.holds.length_le
  rw [addEof]
  refine (pad_holds d.erasesize hpos (Nat.dvd_refl _) h.holds).bind fun st₁ ⟨hkept₁, h₁⟩ => ?_
  obtain ⟨st₂, hadd, hkept₂, h₂⟩ := addData_holds c jffs2Eof h₁
    (by rw [hnil, hlen, List.length_nil]; omega)
  rw [hadd]
  refine (pad_holds d.erasesize hpos (Nat.dvd_refl _) h₂).mono fun st₃ ⟨hkept₃, h₃⟩ => ?_
  have hnodes : st₃.nodes = st.nodes :=
    hkept₃.nodes_eq.trans (hkept₂.nodes_eq.trans hkept₁.nodes_eq)
  obtain ⟨full, cur, hns, hlaid⟩ := h.laid.pad_self
  -- the padded block was handed on, so that no nodes are left over
  have hcur : cur = [] := by
    obtain hbody | ⟨-, hcur⟩ := hlaid.cur_eq
    · have hle := le_length_body (c := c) cur
      rw [← hbody, hnil] at hle
      exact absurd hle (by decide)
    · exact hcur
  rw [hcur, List.append_nil] at hns
  refine ⟨fun n hn => h.wellFormed n (hnodes ▸ hn), full, hnodes.trans hns,
    fun ns hfull => inside_of_le (hlaid.full_le ns hfull), ?_⟩
  -- the end marker is shorter than a block, so the padding gives exactly one more
  have hfill : (fillTo d.erasesize jffs2Eof).length = d.erasesize :=
    length_fillTo_of_lt (by decide) (by omega)
  rw [h₃.blocks_eq, ← hlaid.blocks_eq, Out.pad, Out.put, hnil, List.nil_append, if_pos hfill]

/-- What `mtd_replace_jffs2` writes. -/
theorem mtdReplaceJffs2_ended {f : File} {g : Globals} {buf : List UInt8} {fd : Fd} {ofs : Nat}
    (hes : 4096 ≤ d.erasesize) (hint : d.erasesize < 2 ^ 31) (hdvd : 4 ∣ d.erasesize)
    (hbuf : buf.length = d.erasesize) (hname : f.fname.length ≤ 255)
    (hfits : (Call.file f 1).Fits c d
      (St.empty buf ofs { g with targetIno := 1 : Globals }.started fd)) :
    Ensures (· = Fault.exit) (Ended c d) (mtdReplaceJffs2 c d f g buf fd ofs) := by
  have hstart := inv_empty c hbuf ofs { g with targetIno := 1 : Globals }.started fd
  have hfile := @addFile_keeps c d _ f { g with targetIno := 1 : Globals }.started.targetIno hes hint
    hdvd hname hfits hstart
  exact hfile.bind fun _ h => addEof_ended hes h

/-- The block that the search for the end read last is a whole one. -/
private theorem length_findEnd {readFault : Nat → Bool} {dir buf : List UInt8} {turns fuel : Nat}
    {fd fd' : Fd} {g g' : Globals} {mtdofs mtdofs' : Nat}
    (h : findEnd c d readFault dir turns fuel fd g mtdofs = .ok (some (buf, fd', g', mtdofs'))) :
    buf.length = d.erasesize := by
  -- one block is read in each turn, and the last one is the result
  induction fuel generalizing fd g mtdofs with
  | zero => cases h
  | succ fuel ih =>
    rw [findEnd] at h
    cases hread : readBlock d readFault fd with
    | none =>
      rw [hread] at h
      cases h
    | some r =>
      rw [hread] at h
      obtain ⟨magic, -, h⟩ := bind_ok h
      split at h
      · cases h
      · split at h
        · cases h
          rw [readBlock] at hread
          split at hread
          · cases hread
            exact length_bytesAt _ _ _
          · cases hread
        · obtain ⟨g₁, -, h⟩ := bind_ok h
          exact ih h

/-- What `mtd_write_jffs2` writes behind the file system whose end it has found. -/
theorem mtdWriteJffs2_ended {readFault : Nat → Bool} {turns : Nat} {f : File}
    {dir buf : List UInt8} {fd fd' : Fd} {g g' : Globals} {mtdofs : Nat}
    (hes : 4096 ≤ d.erasesize) (hint : d.erasesize < 2 ^ 31) (hdvd : 4 ∣ d.erasesize)
    (hname : f.fname.length ≤ 255) (hdir : dir.length ≤ 255)
    (hfound : findEnd c d readFault dir turns (d.nblocks + 1) fd
      (if dir = [] then { g with targetIno := 1 } else g) 0 = .ok (some (buf, fd', g', mtdofs)))
    (hfits : ∀ parent, Meets (Call.run c d) (fun st call => call.Fits c d st)
      (St.empty buf (mtdofs - d.erasesize) g'.started { fd' with pos := mtdofs - d.erasesize })
      ((if g'.started.targetIno = 0 then [.dir dir 1] else []) ++ [.file f parent])) :
    Ensures (· = Fault.exit) (fun r => ∃ st, r = some st ∧ Ended c d st)
      (mtdWriteJffs2 c d readFault turns f dir fd g) := by
  have hstart := inv_empty c (length_findEnd hfound) (mtdofs - d.erasesize) g'.started
    { fd' with pos := mtdofs - d.erasesize }
  -- behind the file comes the end marker
  have hbehind : ∀ (st : St) (parent : UInt32), Inv c d st → (Call.file f parent).Fits c d st →
      Ensures (· = Fault.exit) (fun r => ∃ st, r = some st ∧ Ended c d st) (do
        let st ← addFile c d f parent st
        let st ← addEof c d st
        return some st) := by
    intro st parent hst hfit
    refine (addFile_keeps hes hint hdvd hname hfit hst).bind fun st₁ h₁ => ?_
    exact (addEof_ended hes h₁).bind fun st₂ h₂ => ⟨st₂, rfl, h₂⟩
  rw [mtdWriteJffs2]
  simp only [hfound]
  by_cases htarget : g'.started.targetIno = 0
  · -- the directory is added first, and its inode number is the target
    simp only [htarget, if_true, List.singleton_append] at hfits
    have hadded : Ensures (· = Fault.exit) (fun r => Inv c d r.2) (addDir c d dir 1
        (St.empty buf (mtdofs - d.erasesize) g'.started { fd' with pos := mtdofs - d.erasesize })) :=
      addDir_keeps hes hint hdvd hdir (hfits 0).1 hstart
    show Ensures _ _ (if g'.started.targetIno = 0 then _ else _)
    rw [if_pos htarget]
    cases hrun : addDir c d dir 1 (St.empty buf (mtdofs - d.erasesize) g'.started
        { fd' with pos := mtdofs - d.erasesize }) with
    | error e =>
      rw [hrun] at hadded
      rw [St.empty] at hrun
      rw [hrun]
      exact hadded
    | ok r =>
      rw [hrun] at hadded
      have hcall : Call.run c d (St.empty buf (mtdofs - d.erasesize) g'.started
          { fd' with pos := mtdofs - d.erasesize }) (.dir dir 1) = .ok r.2 := by
        rw [Call.run, hrun]
        rfl
      obtain ⟨hfit, -⟩ := (hfits r.1).2 r.2 hcall
      rw [St.empty] at hrun
      rw [hrun]
      exact hbehind { r.2 with globals := { r.2.globals with targetIno := r.1 } } r.1
        ⟨⟨hadded.holds.length_buf, hadded.holds.ofs_eq, hadded.holds.take_eq,
          hadded.holds.blocks_eq⟩, hadded.laid, hadded.wellFormed⟩ hfit
  -- the scan has found the directory
  · simp only [htarget, if_false, List.nil_append] at hfits
    show Ensures _ _ (if g'.started.targetIno = 0 then _ else _)
    rw [if_neg htarget]
    exact hbehind _ _ hstart (hfits g'.started.targetIno).1

/-! ### A directory with a long name -/

/-- A name of 255 bytes. -/
@[irreducible] def longName : List UInt8 := List.replicate 255 0x61

theorem length_longName : longName.length = 255 := by
  rw [longName]
  exact List.length_replicate

/-- An empty buffer of 4096 bytes. -/
@[irreducible] def blankBuf : List UInt8 := List.replicate 4096 0xff

theorem length_blankBuf : blankBuf.length = flash4096.erasesize := by
  rw [blankBuf]
  exact List.length_replicate

/-- The state with an empty buffer. -/
def blank : St :=
  .empty blankBuf 0 { lastIno := 1, lastVersion := 0, targetIno := 1 }
    { pos := 0, mem := fun _ => 0xff, log := [] }

/-- The longest name fits an empty block. -/
private theorem blank_fits : DirentFits little flash4096.erasesize blank.out longName.length := by
  have hcur : blank.out.cur = [] := (List.take_zero : blankBuf.take 0 = [])
  rw [DirentFits, Out.prep, if_pos hcur, length_longName]
  decide

/-- Behind a directory with that name the block is filled up to byte 376. -/
private theorem length_behind_longName {st : St}
    (hrun : Call.run little flash4096 blank (.dir longName 1) = .ok st) :
    st.out.cur.length = 376 := by
  have hcur : blank.out.cur = [] := (List.take_zero : blankBuf.take 0 = [])
  have hholds : Holds flash4096 blank.out blank := St.out_holds length_blankBuf (Nat.zero_le _)
  have hlt : blank.out.cur.length < flash4096.erasesize := by
    rw [hcur]
    decide
  have hadded : Ensures (· = Fault.exit) _ (addDir little flash4096 longName 1 blank) :=
    addDir_holds (by decide) (by decide) (by decide) hholds hlt blank_fits
  rw [Call.run] at hrun
  cases hr : addDir little flash4096 longName 1 blank with
  | error e =>
    rw [hr] at hrun
    cases hrun
  | ok r =>
    rw [hr] at hrun hadded
    cases hrun
    obtain ⟨-, -, -, hbehind⟩ := hadded
    obtain ⟨hend, -⟩ := Out.length_dirent blank.globals dtDir 1 (by decide) blank_fits
    -- 12 bytes of cleanmarker, 40 of header and the name of 255, filled up to a multiple of four
    have hpos : direntEnd little flash4096.erasesize blank.out longName.length = 308 := by
      rw [direntEnd, Out.prep, if_pos hcur, length_longName]
      decide
    rw [hpos] at hend
    generalize blank.out.dirent little flash4096.erasesize _ = o at hend hbehind
    have hes : flash4096.erasesize = 4096 := rfl
    have hne : o.cur ≠ [] := fun hnil => by
      rw [hnil] at hend
      cases hend
    have hroom : ¬flash4096.erasesize - o.cur.length < sizeofInode := by
      rw [hend]
      decide
    -- the inode node ends at a multiple of four
    have hinode : (Node.bytes little (.inode (mkDirInode little (blank.globals.lastIno + 1)))).length =
        68 := by
      rw [Node.bytes, List.length_append, RawInode.length_header]
      rfl
    show (r.2.buf.take r.2.ofs).length = 376
    rw [hbehind.take_eq, Out.dirInode, if_neg hroom, Out.prep, if_neg hne, Out.put, Out.pad,
      fillTo_of_dvd (by rw [List.length_append, hend, hinode])]
    rw [if_neg (by rw [List.length_append, hend, hinode, hes]; decide), List.length_append, hend,
      hinode]

/-- A file of more than one block. -/
def longFile : File :=
  { name := [0x2f, 0x62]
    stat := some { mode := 0x81a4, atime := 0, ctime := 0, mtime := 0, size := 5000 }
    opens := true, bytes := List.replicate 5000 7, script := [.short 100] }

/-- A directory with a long name, and a file that goes over the end of the block. -/
theorem calls_laidOut_longName :
    Meets (Call.run little flash4096) (fun st call => call.Fits little flash4096 st) blank
        [.dir longName 1, .file longFile 1] ∧
      Ensures (· = Fault.exit) (LaidOut little flash4096)
        ([.dir longName 1, .file longFile 1].foldlM (Call.run little flash4096) blank) := by
  have hfits : Meets (Call.run little flash4096) (fun st call => call.Fits little flash4096 st) blank
      [.dir longName 1, .file longFile 1] := by
    -- the first record fits the empty block, the second one the 376 bytes behind it
    refine ⟨blank_fits, fun st hst => ⟨fun _ => ?_, fun _ _ => trivial⟩⟩
    have hlen := length_behind_longName hst
    have hne : st.out.cur ≠ [] := fun hnil => by
      rw [hnil] at hlen
      cases hlen
    refine ⟨?_, .inl ?_⟩
    · rw [DirentFits, Out.prep, if_neg hne, hlen]
      decide
    · rw [direntEnd, Out.prep, if_neg hne, hlen]
      decide
  have hname : ∀ call ∈ [Call.dir longName 1, .file longFile 1], call.name.length ≤ 255 := by
    intro call hcall
    rcases List.mem_pair.mp hcall with rfl | rfl
    · exact Nat.le_of_eq length_longName
    · decide
  exact ⟨hfits, calls_laidOut (by decide) (by decide) (by decide) length_blankBuf hname hfits⟩

/-- A file that leaves 200 bytes of a block of 4096 bytes. -/
def largeFile : File :=
  { name := [0x61]
    stat := some { mode := 0x81a4, atime := 0, ctime := 0, mtime := 0, size := 3772 }
    opens := true, bytes := List.replicate 3772 0, script := [] }

/-- The directory entry for a name of 255 bytes does not fit behind the file. -/
theorem not_laidOut_longName :
    ¬Ensures (· = Fault.exit) (LaidOut little flash4096)
      ([.file largeFile 1, Call.dir longName 1].foldlM (Call.run little flash4096) blank) :=
  not_ensures_of_error (e := .outside) (by decide +kernel) (by decide)

end HandsomeMod.Native.Jffs2
