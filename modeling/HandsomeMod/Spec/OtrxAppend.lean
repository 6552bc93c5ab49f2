import HandsomeMod.Native.Otrx

/-!
# What the TRX tool appends

The loops that read files in blocks, and the bytes that each option of `otrx_create` appends.
-/

namespace HandsomeMod.Native.Otrx

open ForStd

/-! ### Reading in blocks -/

/-- The checksum of the first `length` bytes, and how many are missing. -/
theorem crcLoop_eq {fuel : Nat} {trx : List UInt8} (crc32 : UInt32) (length : Nat)
    (h : trx.length < fuel) : crcLoop fuel trx crc32 length =
      (Crc.accumulate crc32 (trx.take length), length - trx.length) := by
  induction fuel generalizing trx crc32 length with
  | zero => omega
  | succ fuel ih =>
    have hbuf : (trx.take (min 1024 length)).length = min (min 1024 length) trx.length :=
      List.length_take
    rw [crcLoop]
    simp only [hbuf]
    split
    · next h0 =>
      have htake : trx.take length = [] := by
        rw [List.take_eq_nil_iff]
        by_cases hlen : length = 0
        · exact Or.inl hlen
        · exact Or.inr (List.length_eq_zero_iff.mp (by omega))
      rw [htake, show length - trx.length = length by omega]
      rfl
    · next hpos =>
      -- One block, and by induction what follows it.
      generalize hk : min (min 1024 length) trx.length = k at hpos
      have hblock : trx.take (min 1024 length) = trx.take k := by
        rw [← hk]
        exact List.take_eq_take_min
      have hwhole : trx.take length = trx.take k ++ (trx.drop k).take (length - k) := by
        rw [← List.take_add, show k + (length - k) = length by omega]
      rw [ih _ _ (by rw [List.length_drop]; omega), hblock, hwhole, Crc.accumulate_append,
        List.length_drop, show length - k - (trx.length - k) = length - trx.length by omega]

/-- The loop appends all that is left of the file. -/
private theorem appendLoop_eq {fuel : Nat} {rest : List UInt8} (trx : List UInt8) (length : Nat)
    (h : rest.length < fuel) :
    appendLoop fuel rest trx length = (trx ++ rest, length + rest.length) := by
  induction fuel generalizing rest trx length with
  | zero => omega
  | succ fuel ih =>
    have hbuf : (rest.take 1024).length = min 1024 rest.length := List.length_take
    rw [appendLoop]
    simp only [hbuf]
    split
    -- nothing is left to read
    · next h0 =>
      have hnil : rest = [] := List.length_eq_zero_iff.mp (by omega)
      rw [hnil, List.append_nil, List.length_nil, Nat.add_zero]
    · next hpos =>
      have hblock : rest.take 1024 = rest.take (min 1024 rest.length) :=
        List.take_eq_take_min
      rw [ih _ _ (by rw [List.length_drop]; omega), hblock, List.append_assoc,
        List.take_append_drop, List.length_drop]
      congr 1
      omega

/-! ### What an option appends -/

variable (fs : String → Option (List UInt8))

/-- The zeros that align an offset. -/
def padding (currOffset alignment : Nat) : List UInt8 :=
  List.replicate
    (if currOffset &&& (alignment - 1) ≠ 0 then alignment - currOffset % alignment else 0) 0

/-- The bytes of a readable file. -/
def contentOf (path : String) : List UInt8 := (fs path).getD []

/-- What an option appends at an offset. -/
def appended (currOffset : Nat) : Opt → List UInt8
  | .file path | .append path =>
    contentOf fs path ++ padding (currOffset + (contentOf fs path).length) 4
  | .align alignment => padding currOffset alignment
  | .bound offset => List.replicate (offset - currOffset).toNat 0

/-- What a sequence of options appends. -/
def appendedAll : Nat → List Opt → List UInt8
  | _, [] => []
  | currOffset, o :: opts =>
    appended fs currOffset o ++
      appendedAll (currOffset + (appended fs currOffset o).length) opts

/-- The second part of the options appends behind the first. -/
theorem appendedAll_append (currOffset : Nat) (opts opts' : List Opt) :
    appendedAll fs currOffset (opts ++ opts') = appendedAll fs currOffset opts ++
      appendedAll fs (currOffset + (appendedAll fs currOffset opts).length) opts' := by
  induction opts generalizing currOffset with
  | nil => rfl
  | cons o opts ih =>
    rw [List.cons_append, appendedAll, appendedAll, ih, List.append_assoc, List.length_append,
      Nat.add_assoc]

/-- The option starts a partition. -/
def Opt.isFile : Opt → Bool
  | .file _ => true
  | _ => false

/-- The number of partitions. -/
def numFiles (opts : List Opt) : Nat := opts.countP Opt.isFile

/-- An option with `-f` is a partition. -/
theorem numFiles_cons (o : Opt) (opts : List Opt) :
    numFiles (o :: opts) = numFiles opts + if o.isFile then 1 else 0 := List.countP_cons

/-- The partitions of two parts. -/
theorem numFiles_append (opts opts' : List Opt) :
    numFiles (opts ++ opts') = numFiles opts + numFiles opts' := List.countP_append

/-- All files of the options can be opened. -/
def Readable (opts : List Opt) : Prop :=
  ∀ path, .file path ∈ opts ∨ .append path ∈ opts → (fs path).isSome

/-! ### One option -/

/-- The state after an option whose file can be opened. -/
def advance (s : Create) (o : Opt) : Create where
  trx := s.trx ++ appended fs s.currOffset o
  offset :=
    if o.isFile then Function.update s.offset s.currIdx (UInt32.ofNat s.currOffset) else s.offset
  currIdx := s.currIdx + if o.isFile then 1 else 0
  currOffset := s.currOffset + (appended fs s.currOffset o).length

/-- A partition takes the next index. -/
private theorem currIdx_advance (s : Create) (o : Opt) :
    (advance fs s o).currIdx = s.currIdx + if o.isFile then 1 else 0 := rfl

/-- Alignment appends zeros. -/
theorem aligned_eq (s : Create) (alignment : Nat) : s.aligned alignment =
    { s with
      trx := s.trx ++ padding s.currOffset alignment
      currOffset := s.currOffset + (padding s.currOffset alignment).length } := by
  simp only [Create.aligned, createAlign, appendZeros, padding]
  split
  · rw [List.length_replicate]
  · rw [List.replicate_zero, List.append_nil]
    rfl

/-- A file that can be read is appended. -/
private theorem appendFile_eq {path : String} (trx : List UInt8) (h : (fs path).isSome) :
    appendFile fs trx path =
      some (trx ++ contentOf fs path, (contentOf fs path).length) := by
  obtain ⟨content, hcontent⟩ := Option.isSome_iff_exists.mp h
  rw [appendFile, contentOf, hcontent, Option.map_some,
    appendLoop_eq _ _ (Nat.lt_succ_self _), Nat.zero_add]
  rfl

/-- An option that can be served is served. -/
private theorem createOpt_eq {s : Create} {o : Opt} (hread : Readable fs [o])
    (hidx : o.isFile = true → s.currIdx < trxMaxParts) :
    createOpt fs s o = some (advance fs s o) := by
  cases o with
  | file path =>
    have hlt := hidx rfl
    rw [createOpt, if_neg (by omega), appendFile_eq fs _ (hread path (Or.inl (by simp)))]
    simp only [aligned_eq, advance, appended, Opt.isFile, if_true, List.append_assoc,
      List.length_append, Nat.add_assoc]
  | append path =>
    rw [createOpt, appendFile_eq fs _ (hread path (Or.inr (by simp)))]
    simp [aligned_eq, advance, appended, Opt.isFile, Nat.add_assoc]
  | align alignment =>
    rw [createOpt, aligned_eq]
    rfl
  | bound offset =>
    rw [createOpt]
    simp only [advance, appended, Opt.isFile, List.length_replicate]
    split
    -- the image is already longer, nothing is added
    · next hneg =>
      rw [Int.toNat_of_nonpos (by omega), List.replicate_zero, List.append_nil]
      rfl
    · rfl

/-! ### All options -/

/-- The files of the first option and of the others. -/
theorem Readable.cons {o : Opt} {opts : List Opt} (h : Readable fs (o :: opts)) :
    Readable fs [o] ∧ Readable fs opts := by
  constructor
  · intro path hmem
    simp only [List.mem_singleton] at hmem
    exact h path (hmem.imp (fun heq => by rw [heq]; exact List.mem_cons_self)
      fun heq => by rw [heq]; exact List.mem_cons_self)
  · intro path hmem
    exact h path (hmem.imp (List.mem_cons_of_mem _) (List.mem_cons_of_mem _))

/-- Options with files and indices are all served. -/
theorem createOpts_eq {s : Create} {opts : List Opt} (hread : Readable fs opts)
    (hidx : s.currIdx + numFiles opts ≤ trxMaxParts) :
    createOpts fs s opts = some (opts.foldl (advance fs) s) := by
  induction opts generalizing s with
  | nil => rfl
  | cons o opts ih =>
    obtain ⟨hone, hrest⟩ := hread.cons
    rw [numFiles_cons] at hidx
    -- a file takes one of the partitions left
    have hstep : createOpt fs s o = some (advance fs s o) := by
      apply createOpt_eq fs hone
      intro hfile
      rw [if_pos hfile] at hidx
      omega
    rw [createOpts, List.foldlM_cons, hstep]
    exact ih hrest (by rw [currIdx_advance]; omega)

/-- Where several options lead. -/
theorem foldl_advance (s : Create) (opts : List Opt) :
    (opts.foldl (advance fs) s).trx = s.trx ++ appendedAll fs s.currOffset opts ∧
      (opts.foldl (advance fs) s).currOffset =
        s.currOffset + (appendedAll fs s.currOffset opts).length ∧
      (opts.foldl (advance fs) s).currIdx = s.currIdx + numFiles opts := by
  induction opts generalizing s with
  | nil => exact ⟨(List.append_nil _).symm, rfl, rfl⟩
  | cons o opts ih =>
    obtain ⟨htrx, hoffset, hidx⟩ := ih (advance fs s o)
    rw [List.foldl_cons, htrx, hoffset, hidx, appendedAll, numFiles_cons]
    refine ⟨List.append_assoc _ _ _, ?_, ?_⟩
    · rw [List.length_append, ← Nat.add_assoc]
      rfl
    · rw [currIdx_advance]
      omega

/-- Only the offsets of new partitions change. -/
theorem foldl_offset_other (s : Create) (opts : List Opt) {j : Nat}
    (hj : j < s.currIdx ∨ s.currIdx + numFiles opts ≤ j) :
    (opts.foldl (advance fs) s).offset j = s.offset j := by
  induction opts generalizing s with
  | nil => rfl
  | cons o opts ih =>
    rw [numFiles_cons] at hj
    rw [List.foldl_cons, ih (advance fs s o) (by rw [currIdx_advance]; omega), advance]
    split
    · next hfile =>
      rw [if_pos hfile] at hj
      exact Function.update_of_ne (by omega) ..
    · rfl

/-- A partition gets the offset at which its option found the file. -/
theorem foldl_offset_file (s : Create) (before after : List Opt) (path : String) :
    ((before ++ .file path :: after).foldl (advance fs) s).offset (s.currIdx + numFiles before) =
      UInt32.ofNat (s.currOffset + (appendedAll fs s.currOffset before).length) := by
  obtain ⟨-, hoffset, hidx⟩ := foldl_advance fs s before
  rw [List.foldl_append, List.foldl_cons, foldl_offset_other]
  · rw [advance, hoffset, hidx]
    exact Function.update_self ..
  · apply Or.inl
    show s.currIdx + numFiles before < (before.foldl (advance fs) s).currIdx + 1
    omega

end HandsomeMod.Native.Otrx
