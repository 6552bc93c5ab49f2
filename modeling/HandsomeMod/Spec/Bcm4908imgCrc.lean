import HandsomeMod.ForStd.Crc
import HandsomeMod.Native.Bcm4908img
import HandsomeMod.Spec.OtrxAppend

/-!
# The checksum of a BCM4908 image

`bcm4908img_create` counts the bytes of files in the checksum of the tail and leaves out the zeros
that `-a` and `-A` append, while `bcm4908img_parse` counts all bytes. The two agree exactly when the
changes that the zeros make to the register cancel.
-/

namespace HandsomeMod.Native.Bcm4908img

open ForStd

/-! ### Pieces of an image -/

/-- What one option appends. -/
inductive Piece where
  /-- The bytes of a file. -/
  | data (content : List UInt8)
  /-- Zeros. -/
  | pad (length : Nat)
  deriving DecidableEq, Repr

namespace Piece

def bytes : Piece → List UInt8
  | data content => content
  | pad length => List.replicate length 0

/-- The bytes that `bcm4908img_create` counts in the checksum. -/
def counted : Piece → List UInt8
  | data content => content
  | pad _ => []

end Piece

/-- What a number of pieces is in the file. -/
def imageOf (ps : List Piece) : List UInt8 := ps.flatMap Piece.bytes

/-- What of it is counted. -/
def countedOf (ps : List Piece) : List UInt8 := ps.flatMap Piece.counted

/-- The changes that the paddings make to a register, each carried over the files behind it. -/
def paddingChange : UInt32 → List Piece → UInt32
  | _, [] => 0
  | crc32, .data content :: ps => paddingChange (Crc.accumulate crc32 content) ps
  | crc32, .pad length :: ps =>
    paddingChange (Crc.zeros length crc32) ps ^^^
      Crc.zeros (countedOf ps).length (Crc.zeros length crc32 ^^^ crc32)

/-- The changes are the difference of the two checksums. -/
theorem paddingChange_eq (crc32 : UInt32) (ps : List Piece) : paddingChange crc32 ps =
    Crc.accumulate crc32 (imageOf ps) ^^^ Crc.accumulate crc32 (countedOf ps) := by
  induction ps generalizing crc32 with
  | nil => exact UInt32.xor_self.symm
  | cons p ps ih =>
    cases p with
    | data content =>
      have himage : imageOf (.data content :: ps) = content ++ imageOf ps := rfl
      have hcounted : countedOf (.data content :: ps) = content ++ countedOf ps := rfl
      rw [paddingChange, ih, himage, hcounted, Crc.accumulate_append, Crc.accumulate_append]
    -- zeros change the register linearly, so their change can be carried past the data behind them
    | pad length =>
      have himage : imageOf (.pad length :: ps) = List.replicate length 0 ++ imageOf ps := rfl
      have hcounted : countedOf (.pad length :: ps) = countedOf ps := rfl
      -- The register behind the zeros is the one before them and their change.
      have hsplit : Crc.zeros length crc32 = crc32 ^^^ (Crc.zeros length crc32 ^^^ crc32) := by
        rw [UInt32.xor_comm _ crc32, ← UInt32.xor_assoc, UInt32.xor_self, UInt32.zero_xor]
      have hafter : Crc.accumulate (Crc.zeros length crc32) (countedOf ps) =
          Crc.accumulate crc32 (countedOf ps) ^^^
            Crc.zeros (countedOf ps).length (Crc.zeros length crc32 ^^^ crc32) := by
        rw [← Crc.accumulate_xor, ← hsplit]
      rw [paddingChange, ih, himage, hcounted, Crc.accumulate_append, hafter]
      rw [UInt32.xor_assoc, UInt32.xor_assoc, UInt32.xor_self, UInt32.xor_zero]
      rfl

/-- Files alone change nothing. -/
private theorem paddingChange_of_data (crc32 : UInt32) {ps : List Piece}
    (h : ∀ p ∈ ps, ∃ content, p = .data content) : paddingChange crc32 ps = 0 := by
  induction ps generalizing crc32 with
  | nil => rfl
  | cons p ps ih =>
    obtain ⟨content, rfl⟩ := h p List.mem_cons_self
    exact ih _ fun q hq => h q (List.mem_cons_of_mem _ hq)

/-- One padding cancels only if its zeros leave the register as it is. -/
theorem paddingChange_pad (crc32 : UInt32) (length : Nat) {ps : List Piece}
    (h : ∀ p ∈ ps, ∃ content, p = .data content) :
    paddingChange crc32 (.pad length :: ps) = 0 ↔ Crc.zeros length crc32 = crc32 := by
  rw [paddingChange, paddingChange_of_data _ h, UInt32.zero_xor, Crc.zeros_eq_zero,
    UInt32.xor_eq_zero_iff]

/-! ### What the options append -/

variable (fs : String → Option (List UInt8)) (malloc : Nat → Bool)

/-- The zeros of an option that asks for `length` of them. -/
def padPiece (length : Nat) : Option Piece := if malloc length then some (.pad length) else none

/-- The piece that an option appends at an offset. -/
def pieceOf (curOffset : Nat) : Opt → Option Piece
  | .file path => (fs path).map .data
  | .align alignment =>
    if curOffset &&& sizeT (sizeT alignment - 1) ≠ 0 then
      padPiece malloc (sizeT (sizeT alignment - curOffset % sizeT alignment))
    else none
  | .offset offset =>
    if ssizeT (offset - curOffset) < 0 then none
    else padPiece malloc (ssizeT (offset - curOffset)).toNat

/-- The offset behind a piece. -/
def offsetAfter (curOffset : Nat) (p : Option Piece) : Nat :=
  match p with
  | none => curOffset
  | some p =>
    let bytes := ssizeT p.bytes.length
    if bytes < 0 then curOffset else sizeT (curOffset + bytes)

/-- The pieces that a sequence of options appends from an offset on. -/
def piecesOf : Nat → List Opt → List Piece
  | _, [] => []
  | curOffset, o :: opts =>
    (pieceOf fs malloc curOffset o).toList ++
      piecesOf (offsetAfter curOffset (pieceOf fs malloc curOffset o)) opts

/-- The state after a piece. -/
def Create.append (s : Create) (p : Option Piece) : Create where
  fp := s.fp ++ imageOf p.toList
  crc32 := Crc.accumulate s.crc32 (countedOf p.toList)
  curOffset := offsetAfter s.curOffset p

/-- An option that fails appends nothing. -/
private theorem append_none (s : Create) : s.append none = s := by
  cases s
  simp only [Create.append, Option.toList_none, imageOf, countedOf, List.flatMap_nil,
    List.append_nil, offsetAfter]
  rfl

/-- What an option appends is counted, and goes into the checksum. -/
private theorem append_some (s : Create) (p : Piece) : s.append (some p) =
    { s with
      fp := s.fp ++ p.bytes
      crc32 := Crc.accumulate s.crc32 p.counted }.advance (ssizeT p.bytes.length) := by
  simp only [Create.append, Create.advance, Option.toList_some, imageOf, countedOf,
    List.flatMap_singleton, offsetAfter]
  split <;> rfl

/-- The loop copies the rest of the file and counts it. -/
private theorem appendLoop_eq {fuel : Nat} {rest : List UInt8} (trx : List UInt8) (crc32 : UInt32)
    (length : Nat) (h : rest.length < fuel) : appendLoop fuel rest trx crc32 length =
      (trx ++ rest, Crc.accumulate crc32 rest, length + rest.length) := by
  -- induction on the fuel; each turn takes up to 1024 bytes off `rest`
  induction fuel generalizing rest trx crc32 length with
  | zero => omega
  | succ fuel ih =>
    have hbuf : (rest.take 1024).length = min 1024 rest.length := List.length_take
    rw [appendLoop]
    simp only [hbuf]
    split
    · next h0 =>
      have hnil : rest = [] := List.length_eq_zero_iff.mp (by omega)
      rw [hnil, List.append_nil, List.length_nil, Nat.add_zero]
      rfl
    · next hpos =>
      -- One block, and by induction what follows it.
      have hblock : rest.take 1024 = rest.take (min 1024 rest.length) :=
        List.take_eq_take_min
      rw [ih _ _ _ (by rw [List.length_drop]; omega), hblock, List.append_assoc,
        ← Crc.accumulate_append, List.take_append_drop, List.length_drop,
        show length + min 1024 rest.length + (rest.length - min 1024 rest.length) =
          length + rest.length by omega]

/-- A file is appended whole. -/
private theorem createAppendFile_eq (s : Create) (inPath : String) :
    createAppendFile fs s inPath = s.append ((fs inPath).map .data) := by
  rw [createAppendFile]
  cases fs inPath with
  | none => exact (append_none s).symm
  | some content =>
    rw [Option.map_some, append_some]
    simp only [appendLoop_eq _ _ _ (Nat.lt_succ_self _), Nat.zero_add]
    rfl

/-- Zeros are appended in one piece. -/
private theorem createAppendZeros_eq (s : Create) (length : Nat) :
    createAppendZeros malloc s length = s.append (padPiece malloc length) := by
  rw [createAppendZeros, padPiece]
  split
  · rw [append_some, Piece.bytes, List.length_replicate]
    rfl
  · exact (append_none s).symm

/-- An option appends its piece, if it does not divide by zero. -/
private theorem createOpt_eq {s s' : Create} {o : Opt} (h : createOpt fs malloc s o = some s') :
    s' = s.append (pieceOf fs malloc s.curOffset o) := by
  -- a file, or zeros up to an alignment or an offset; the other options write nothing
  cases o with
  | file path =>
    rw [createOpt, createAppendFile_eq] at h
    exact (Option.some.inj h).symm
  | align alignment =>
    rw [createOpt, createAlign] at h
    rw [pieceOf]
    split at h
    · next hmask =>
      split at h
      · cases h
      · rw [if_pos hmask, ← createAppendZeros_eq]
        exact (Option.some.inj h).symm
    · next hmask =>
      rw [if_neg hmask, append_none]
      exact (Option.some.inj h).symm
  | offset offset =>
    rw [createOpt] at h
    rw [pieceOf]
    split at h
    · next hneg =>
      rw [if_pos hneg, append_none]
      exact (Option.some.inj h).symm
    · next hneg =>
      rw [if_neg hneg, ← createAppendZeros_eq]
      exact (Option.some.inj h).symm

/-- The images of two lists of pieces follow one another. -/
private theorem imageOf_append (ps qs : List Piece) : imageOf (ps ++ qs) = imageOf ps ++ imageOf qs
    :=
  List.flatMap_append

/-- What is counted of two lists of pieces follows one another. -/
private theorem countedOf_append (ps qs : List Piece) :
    countedOf (ps ++ qs) = countedOf ps ++ countedOf qs :=
  List.flatMap_append

/-- What a sequence of options leaves in the file, and what it counts. -/
theorem createOpts_eq {s s' : Create} {opts : List Opt}
    (h : createOpts fs malloc s opts = some s') :
    s'.fp = s.fp ++ imageOf (piecesOf fs malloc s.curOffset opts) ∧
      s'.crc32 = Crc.accumulate s.crc32 (countedOf (piecesOf fs malloc s.curOffset opts)) := by
  -- the pieces depend on the offset reached, so the state is general
  induction opts generalizing s with
  | nil =>
    obtain rfl : s = s' := Option.some.inj h
    exact ⟨(List.append_nil _).symm, rfl⟩
  | cons o opts ih =>
    rw [createOpts, List.foldlM_cons, Option.bind_eq_bind, Option.bind_eq_some_iff] at h
    obtain ⟨s₁, hopt, hrest⟩ := h
    have hs₁ : s₁ = s.append (pieceOf fs malloc s.curOffset o) := createOpt_eq fs malloc hopt
    obtain ⟨hfp, hcrc⟩ := ih hrest
    have hoff : s₁.curOffset = offsetAfter s.curOffset (pieceOf fs malloc s.curOffset o) := by
      rw [hs₁]
      rfl
    rw [hoff] at hfp hcrc
    constructor
    · rw [hfp, piecesOf, imageOf_append, ← List.append_assoc, hs₁]
      rfl
    · rw [hcrc, piecesOf, countedOf_append, Crc.accumulate_append, hs₁]
      rfl

/-! ### What the parser computes -/

/-- The checksum loop of the TRX tool. -/
theorem crcLoop_eq_otrx (fuel : Nat) (fp : List UInt8) (crc32 : UInt32) (length : Nat) :
    crcLoop fuel fp crc32 length = Otrx.crcLoop fuel fp crc32 length := by
  induction fuel generalizing fp crc32 length with
  | zero => rfl
  | succ fuel ih =>
    rw [crcLoop, Otrx.crcLoop]
    simp only [ih]

/-- The checksum from the start of a file is the one of its first bytes. -/
private theorem parseCrc32_eq {fp : List UInt8} {tailOffset : Nat} (h : tailOffset ≤ fp.length) :
    parseCrc32 fp 0 tailOffset = .ok (Crc.accumulate 0xffffffff (fp.take tailOffset)) := by
  rw [parseCrc32]
  simp only [List.drop_zero, Nat.sub_zero, crcLoop_eq_otrx,
    Otrx.crcLoop_eq _ _ (Nat.lt_succ_self _)]
  rw [Nat.sub_eq_zero_of_le h]
  exact if_neg (fun hne => hne rfl)

/-- A tail has the size of a tail. -/
theorem length_tail (crc32 : UInt32) : (tail crc32).length = sizeofTail := by
  simp only [tail, List.length_append, length_leBytes]
  rfl

/-- The checksum of a tail is the one that it was made with. -/
theorem tailCrc32_tail (crc32 : UInt32) : tailCrc32 (tail crc32) = crc32 := by
  have hbytes : bytesAt (fun k => (tail crc32).getD k 0) 0 4 = leBytes 4 crc32.toNat := by
    rw [bytesAt_getD (by rw [length_tail]; decide)]
    rfl
  have hload := loadLE_of_bytesAt hbytes crc32.toNat_lt
  simp only [Nat.zero_add] at hload
  rw [tailCrc32, hload, UInt32.ofNat_toNat]

/-- The checksum in the tail is the one that `bcm4908img_parse` computes from the start of the
file. -/
def TailMatches (fp : List UInt8) : Prop :=
  parseCrc32 fp 0 (fp.length - sizeofTail) =
    .ok (tailCrc32 (readAt fp (fp.length - sizeofTail) sizeofTail))

/-- The tail of an image that ends in one. -/
private theorem readAt_tail (body : List UInt8) (crc32 : UInt32) :
    readAt (body ++ tail crc32) body.length sizeofTail = tail crc32 := by
  rw [readAt, List.drop_left, ← length_tail crc32, List.take_length]

/-- In front of the tail there is the body. -/
private theorem length_sub_tail (body : List UInt8) (crc32 : UInt32) :
    (body ++ tail crc32).length - sizeofTail = body.length := by
  rw [List.length_append, length_tail, Nat.add_sub_cancel]

/-- The tail of an image is right when its checksum is the one of all bytes before it. -/
theorem tailMatches_append (body : List UInt8) (crc32 : UInt32) :
    TailMatches (body ++ tail crc32) ↔ Crc.accumulate 0xffffffff body = crc32 := by
  have hle : body.length ≤ (body ++ tail crc32).length := by
    rw [List.length_append]
    omega
  rw [TailMatches, length_sub_tail, readAt_tail, parseCrc32_eq hle, List.take_left,
    tailCrc32_tail, Except.ok.injEq]

/-- Where the parser finds the image from the start of the file to the tail, it accepts the image if
the tail is right. -/
theorem parse_eq_ok_iff {fp : List UInt8} {info : Info} (hinfo : parseOffsets fp = .ok info)
    (hcferom : info.cferomOffset = 0) (htail : info.tailOffset = fp.length - sizeofTail)
    (hlen : sizeofTail ≤ fp.length) : parse fp = .ok info ↔ TailMatches fp := by
  have hread : (readAt fp (fp.length - sizeofTail) sizeofTail).length = sizeofTail := by
    rw [readAt, List.length_take, List.length_drop]
    omega
  rw [parse, hinfo, TailMatches, parseCrc32_eq (Nat.sub_le _ _)]
  simp only [bind, Except.bind, hcferom, htail, parseCrc32_eq (Nat.sub_le _ _), hread]
  rw [if_neg (not_not_intro rfl), Except.ok.injEq]
  split
  · next hne => exact iff_of_false (fun hok => by cases hok) hne
  · next heq => exact iff_of_true rfl (not_not.mp heq)

/-- **The tail of a created image is right exactly when the changes that its paddings make to the
checksum cancel**, and so does the parser see it. -/
theorem create_tailMatches_iff {opts : List Opt} {fp : List UInt8}
    (h : create fs malloc opts = some fp) :
    (TailMatches fp ↔ paddingChange 0xffffffff (piecesOf fs malloc 0 opts) = 0) ∧
      ∀ info, parseOffsets fp = .ok info → info.cferomOffset = 0 →
        info.tailOffset = fp.length - sizeofTail →
          (parse fp = .ok info ↔ paddingChange 0xffffffff (piecesOf fs malloc 0 opts) = 0) := by
  obtain ⟨s, hs, rfl⟩ := Option.map_eq_some_iff.mp h
  obtain ⟨hfp, hcrc⟩ := createOpts_eq fs malloc hs
  -- the paddings are in the file, the checksum leaves them out
  have hbody : s.fp = imageOf (piecesOf fs malloc 0 opts) := hfp
  have hcount : s.crc32 =
      Crc.accumulate 0xffffffff (countedOf (piecesOf fs malloc 0 opts)) := hcrc
  -- both checksums agree when the padding does not change the state
  have hmatch : TailMatches (s.fp ++ tail s.crc32) ↔
      paddingChange 0xffffffff (piecesOf fs malloc 0 opts) = 0 := by
    rw [tailMatches_append, paddingChange_eq, UInt32.xor_eq_zero_iff, hbody, hcount]
  refine ⟨hmatch, fun info hinfo hcferom htail => ?_⟩
  have hlen : sizeofTail ≤ (s.fp ++ tail s.crc32).length := by
    rw [List.length_append, length_tail]
    omega
  rw [← hmatch]
  exact parse_eq_ok_iff hinfo hcferom htail hlen

/-- A file of one byte, aligned to four. -/
private theorem create_aligned : create (fun _ => some [1]) (fun _ => true)
    [.file "bootfs", .align 4] = some ([1, 0, 0, 0] ++ tail 0x5afa20e4) := by
  decide

/-- Files that end at the alignment need no zeros, and the checksum is right. -/
theorem create_tailMatches_aligned : ∃ fp, create (fun _ => some [1, 2, 3, 4]) (fun _ => true)
    [.file "cferom", .align 4, .file "bootfs", .align 8] = some fp ∧ TailMatches fp := by
  have hsome : (create (fun _ => some [1, 2, 3, 4]) (fun _ => true)
      [.file "cferom", .align 4, .file "bootfs", .align 8]).isSome := by decide
  obtain ⟨fp, hfp⟩ := Option.isSome_iff_exists.mp hsome
  exact ⟨fp, hfp, (create_tailMatches_iff _ _ hfp).1.mpr (by decide)⟩

/-- The three zeros of that image are not counted. -/
theorem create_aligned_not_tailMatches :
    ∃ fp, create (fun _ => some [1]) (fun _ => true) [.file "bootfs", .align 4] = some fp ∧
      ¬ TailMatches fp := by
  refine ⟨[1, 0, 0, 0] ++ tail 0x5afa20e4, create_aligned, ?_⟩
  rw [tailMatches_append]
  decide +kernel

end HandsomeMod.Native.Bcm4908img
