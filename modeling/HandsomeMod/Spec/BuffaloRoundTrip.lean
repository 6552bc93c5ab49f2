import HandsomeMod.Native.Buffalo

/-!
# What is encrypted is decrypted

The cipher undoes itself, also where a buffer is decrypted into a place in front of it. `encrypt_buf`
leaves `fileBytes` in the buffer, and `decrypt_buf` takes them apart.
-/

namespace HandsomeMod.Native.Buffalo

open ForStd

variable {malloc : Nat → Bool} {key : Key} {longstate : Bool} {m : Mem}

/-! ### The cipher -/

/-- A byte that is stored. -/
private theorem update_eq_writeBytes (m : Mem) (pos : Nat) (b : UInt8) :
    Function.update m pos b = writeBytes m pos [b] := by
  funext i
  by_cases h : i = pos
  · simp [writeBytes, h]
  · rw [Function.update_of_ne h, writeBytes, if_neg]
    rw [List.length_singleton]
    omega

/-- The bytes from a position on begin with the one there. -/
private theorem bytesAt_succ (m : Mem) (pos n : Nat) :
    bytesAt m pos (n + 1) = m pos :: bytesAt m (pos + 1) n := by
  rw [Nat.add_comm, bytesAt_add]
  rfl

/-- What is written in front of the bytes that are still to be read does not change them. -/
private theorem bcryptProcess_eq (n : Nat) {len : Nat} (ctx : BcryptCtx) (m : Mem) {src dst : Nat}
    (h : dst ≤ src) : bcryptProcess n len ctx m src dst =
      writeBytes m dst (Mealy.run (bcryptTurn n) ctx (bytesAt m src len)).2 := by
  induction len generalizing ctx m src dst with
  | zero =>
    funext i
    rw [bcryptProcess, writeBytes, if_neg]
    simp [bytesAt, Mealy.run]
  | succ len ih =>
    have hrest : bytesAt (Function.update m dst (bcryptTurn n ctx (m src)).2) (src + 1) len =
        bytesAt m (src + 1) len :=
      bytesAt_congr fun i _ => Function.update_of_ne (by omega) _ _
    rw [bcryptProcess, ih _ _ (by omega), hrest, update_eq_writeBytes, bytesAt_succ]
    exact writeBytes_append m dst [_] _

/-- The bytes that a buffer becomes. -/
def crypt (seed : UInt8) (key : Key) (longstate : Bool) (l : List UInt8) : List UInt8 :=
  (Mealy.run (bcryptTurn (stateLen l.length longstate))
    (bcryptInit (seed :: key.bytes) (stateLen l.length longstate)) l).2

/-- Encryption keeps the length. -/
private theorem length_crypt (seed : UInt8) (key : Key) (longstate : Bool) (l : List UInt8) :
    (crypt seed key longstate l).length = l.length := Mealy.length_run _ _

/-- The cipher undoes itself. -/
private theorem crypt_crypt (seed : UInt8) (key : Key) (longstate : Bool) (l : List UInt8) :
    crypt seed key longstate (crypt seed key longstate l) = l := by
  have hlen := length_crypt seed key longstate l
  rw [crypt, hlen]
  refine (Mealy.run_inverse (r := Eq) ?_ rfl l).1
  rintro ctx _ b rfl
  simp only [bcryptTurn, UInt8.xor_assoc, UInt8.xor_self, UInt8.xor_zero, and_self]

/-- `bcrypt_buf` stores the encrypted bytes, also over those that it reads. -/
private theorem bcryptBuf_eq (seed : UInt8) {l : List UInt8} {src dst : Nat}
    (hmalloc : malloc (stateLen l.length longstate) = true) (hle : dst ≤ src)
    (hsrc : bytesAt m src l.length = l) :
    bcryptBuf malloc seed key m src dst l.length longstate =
      some (writeBytes m dst (crypt seed key longstate l)) := by
  rw [bcryptBuf, if_pos hmalloc, bcryptProcess_eq _ _ _ hle, hsrc, crypt]

/-- What was encrypted becomes what it was. -/
private theorem bcryptBuf_crypt (seed : UInt8) {l : List UInt8} {src dst : Nat}
    (hmalloc : malloc (stateLen l.length longstate) = true) (hle : dst ≤ src)
    (hsrc : bytesAt m src l.length = crypt seed key longstate l) :
    bcryptBuf malloc seed key m src dst l.length longstate = some (writeBytes m dst l) := by
  have hlen := length_crypt seed key longstate l
  rw [← hlen] at hmalloc hsrc
  have hcrypt : bcryptBuf malloc seed key m src dst _ longstate = _ :=
    bcryptBuf_eq seed hmalloc hle hsrc
  rwa [hlen, crypt_crypt] at hcrypt

/-! ### What is in the buffer -/

/-- The bytes of `put_be32`. -/
def be32 (val : Nat) : List UInt8 := bytesAt (storeBE 4 val) 0 4

private theorem length_be32 (val : Nat) : (be32 val).length = 4 := length_bytesAt _ _ _

/-- A length that was stored is read again. -/
private theorem getBe32_eq {p val : Nat} (h : bytesAt m p 4 = be32 val) (hval : val < 2 ^ 32) :
    getBe32 m p = val := by
  have hbyte : ∀ i ∈ List.range 4, m (p + i) = storeBE 4 val (0 + i) := List.map_inj_left.mp h
  have hload : loadBE 4 (fun i => m (p + i)) = loadBE 4 (storeBE 4 val) := by
    apply loadBE_congr
    intro i hi
    rw [hbyte i (List.mem_range.mpr hi), Nat.zero_add]
  rw [getBe32, hload, loadBE_storeBE hval]

/-- A string, with its NUL, in an array. -/
structure IsString (field : Mem) (size : Nat) (s : List UInt8) : Prop where
  bytes : bytesAt field 0 (s ++ [0]).length = s ++ [0]
  noNul : 0 ∉ s
  fits : s.length < size

/-- The string of a field. -/
theorem IsString.cstring_eq {field : Mem} {size : Nat} {s : List UInt8} (h : IsString field size s) :
    cstring field size = s := by
  obtain ⟨r, rfl⟩ := Nat.exists_eq_add_of_lt h.fits
  have hbytes := h.bytes
  rw [List.length_append, List.length_singleton] at hbytes
  have hne : ∀ b ∈ s, decide (b ≠ 0) = true :=
    fun b hb => decide_eq_true fun heq => h.noNul (heq ▸ hb)
  rw [cstring, show s.length + r + 1 = s.length + 1 + r by omega, bytesAt_add, hbytes,
    List.append_assoc, List.takeWhile_append_of_pos hne]
  simp

/-- A field behind its length, encrypted. -/
def fieldBytes (seed : UInt8) (key : Key) (longstate : Bool) (s : List UInt8) : List UInt8 :=
  be32 (s.length + 1) ++ crypt seed key longstate (s ++ [0])

/-- A field takes its length and the string with its NUL. -/
private theorem length_fieldBytes (seed : UInt8) (key : Key) (longstate : Bool) (s : List UInt8) :
    (fieldBytes seed key longstate s).length = 4 + (s.length + 1) := by
  rw [fieldBytes, List.length_append, length_be32, length_crypt, List.length_append,
    List.length_singleton]

/-- A field is stored as its bytes. -/
private theorem putField_eq {ep : EncParam} {field : Mem} {size p : Nat} {s : List UInt8}
    (seed : UInt8)
    (h : IsString field size s)
    (hmalloc : malloc (stateLen (s.length + 1) ep.longstate) = true) :
    putField malloc seed ep field size m p =
      some (writeBytes m p (fieldBytes seed ep.key ep.longstate s)) := by
  have hlen : (s ++ [0]).length = s.length + 1 := by
    rw [List.length_append, List.length_singleton]
  have hbytes := h.bytes
  rw [← hlen] at hmalloc
  have hcrypt : bcryptBuf malloc seed ep.key (writeBytes (putBe32 m p (s.length + 1)) (p + 4)
      (s ++ [0])) (p + 4) (p + 4) _ ep.longstate = _ :=
    bcryptBuf_eq seed hmalloc (le_refl (p + 4)) (bytesAt_writeBytes_self _ _ _)
  rw [putField, h.cstring_eq, ← hlen, hbytes, hlen]
  rw [hlen] at hcrypt
  rw [hcrypt, writeBytes_writeBytes _ _ (length_crypt _ _ _ _).symm, fieldBytes]
  exact congrArg some (writeBytes_append m p (be32 (s.length + 1)) _)

/-- The first byte of a field, which is the seed of the next one. -/
def fieldSeed (seed : UInt8) (key : Key) (longstate : Bool) (s : List UInt8) : UInt8 :=
  (crypt seed key longstate (s ++ [0])).getD 0 0

/-- The seed that goes on with the next field is the first encrypted byte. -/
private theorem fieldSeed_eq {seed : UInt8} {p : Nat} {s : List UInt8} :
    writeBytes m p (fieldBytes seed key longstate s) (p + 4) = fieldSeed seed key longstate s := by
  have hlen := length_fieldBytes seed key longstate s
  rw [writeBytes_add _ _ (by omega), fieldBytes, fieldSeed,
    List.getD_append_right _ _ _ _ (length_be32 _).le, length_be32]

/-- The bytes in front of the data. -/
def headerBytes (ep : EncParam) (magic product version : List UInt8) : List UInt8 :=
  magic ++ [0] ++ [ep.seed] ++ fieldBytes ep.seed ep.key ep.longstate product ++
    fieldBytes (fieldSeed ep.seed ep.key ep.longstate product) ep.key ep.longstate version ++
    be32 ep.datalen.toNat

/-- The seed of the data. -/
def dataSeed (ep : EncParam) (product version : List UInt8) : UInt8 :=
  fieldSeed (fieldSeed ep.seed ep.key ep.longstate product) ep.key ep.longstate version

/-- The bytes that `encrypt_buf` leaves in the buffer. -/
def fileBytes (ep : EncParam) (magic product version data : List UInt8) : List UInt8 :=
  headerBytes ep magic product version ++
    crypt (dataSeed ep product version) ep.key ep.longstate data ++ be32 ep.csum.toNat

/-- The header is as long as was computed before. -/
private theorem length_headerBytes (ep : EncParam) {magic : List UInt8}
    (product version : List UInt8)
    (hmagic : magic.length = 5) : (headerBytes ep magic product version).length =
      encComputeHeaderLen product version := by
  simp only [headerBytes, List.length_append, List.length_singleton, length_fieldBytes, length_be32,
    hmagic, encComputeHeaderLen, encMagicLen]
  omega

/-- A write at the end of what was written. -/
private theorem writeBytes_behind {pos start : Nat} {l : List UInt8} (l' : List UInt8)
    (h : pos = start + l.length) :
    writeBytes (writeBytes m start l) pos l' = writeBytes m start (l ++ l') := by
  rw [h, writeBytes_append]

/-- The parameters have these strings. -/
structure EncParam.Has (ep : EncParam) (magic product version : List UInt8) : Prop where
  length_magic : magic.length = 5
  magic : IsString ep.magic encMagicLen magic
  product : IsString ep.product encProductLen product
  version : IsString ep.version encVersionLen version

/-- There is memory for each state of the cipher. -/
def HasMemory (malloc : Nat → Bool) (longstate : Bool) (product version data : List UInt8) : Prop :=
  ∀ len ∈ [product.length + 1, version.length + 1, data.length],
    malloc (stateLen len longstate) = true

/-- What `encrypt_buf` writes, for data behind the header. -/
theorem encryptBuf_eq {ep : EncParam} {magic product version data : List UInt8}
    (h : ep.Has magic product version)
    (hmalloc : HasMemory malloc ep.longstate product version data)
    (hlen : ep.datalen.toNat = data.length)
    (hdata : bytesAt m (encComputeHeaderLen product version) data.length = data) :
    encryptBuf malloc ep m 0 (encComputeHeaderLen product version) =
      some (writeBytes m 0 (fileBytes ep magic product version data)) := by
  have hmagic := h.magic.bytes
  have hproduct := hmalloc (product.length + 1) (by simp)
  have hversion := hmalloc (version.length + 1) (by simp)
  have hdataMem := hmalloc data.length (by simp)
  have hheader := length_headerBytes ep product version h.length_magic
  rw [List.length_append, List.length_singleton] at hmagic
  -- the magic and the seed
  have hseed : writeBytes (writeBytes m 0 (magic ++ [0])) (0 + (magic.length + 1)) [ep.seed] =
      writeBytes m 0 (magic ++ [0] ++ [ep.seed]) :=
    writeBytes_behind _ (by rw [List.length_append, List.length_singleton])
  simp only [encryptBuf, h.magic.cstring_eq, h.product.cstring_eq, h.version.cstring_eq, hmagic,
    hseed]
  -- the two strings
  rw [putField_eq _ h.product hproduct, Option.bind_eq_bind, Option.bind_some, fieldSeed_eq,
    putField_eq _ h.version hversion, Option.bind_some, fieldSeed_eq]
  have hwritten : putBe32 (writeBytes (writeBytes (writeBytes m 0 (magic ++ [0] ++ [ep.seed]))
      (0 + (magic.length + 1) + 1) (fieldBytes ep.seed ep.key ep.longstate product))
      (0 + (magic.length + 1) + 1 + 4 + (product.length + 1))
      (fieldBytes (fieldSeed ep.seed ep.key ep.longstate product) ep.key ep.longstate version))
      (0 + (magic.length + 1) + 1 + 4 + (product.length + 1) + 4 + (version.length + 1))
      ep.datalen.toNat = writeBytes m 0 (headerBytes ep magic product version) := by
    have hprefix : (magic ++ [0] ++ [ep.seed]).length = magic.length + 1 + 1 := by
      simp only [List.length_append, List.length_singleton]
    have hfirst := length_fieldBytes ep.seed ep.key ep.longstate product
    have hsecond := length_fieldBytes (fieldSeed ep.seed ep.key ep.longstate product) ep.key
      ep.longstate version
    rw [writeBytes_behind (l := magic ++ [0] ++ [ep.seed]) _ (by omega),
      writeBytes_behind (l := magic ++ [0] ++ [ep.seed] ++ _) _
        (by rw [List.length_append, hprefix, hfirst]; omega)]
    refine writeBytes_behind _ ?_
    rw [List.length_append, List.length_append, hprefix, hfirst, hsecond]
    omega
  rw [hwritten]
  -- the data, which are behind the header
  have hbehind : bytesAt (writeBytes m 0 (headerBytes ep magic product version))
      (encComputeHeaderLen product version) data.length = data := by
    rw [bytesAt_writeBytes_after _ _ _ (by omega), hdata]
  rw [hlen, bcryptBuf_eq _ hdataMem (le_refl _) hbehind, Option.bind_some,
    writeBytes_behind _ (by omega)]
  refine congrArg some (writeBytes_behind _ ?_)
  rw [List.length_append, length_crypt, hheader, Nat.zero_add]

/-! ### What is taken apart -/

/-- What is left is skipped. -/
theorem Cursor.skip_eq {c : Cursor} {len : Nat} (h : len ≤ c.remain) :
    c.skip len = some { p := c.p + len, remain := c.remain - len } := by
  rw [Cursor.skip, if_neg (not_lt.mpr h)]

/-- A field that was stored is read and decrypted. -/
private theorem getField_eq {field : Mem} {size : Nat} {c : Cursor} {seed : UInt8} {s : List UInt8}
    (hbytes : bytesAt m c.p (fieldBytes seed key longstate s).length = fieldBytes seed key longstate s)
    (hremain : 4 + (s.length + 1) ≤ c.remain) (hfits : s.length < size) (hsize : size < 2 ^ 32) :
    getField field size m c = some (writeBytes field 0 (crypt seed key longstate (s ++ [0])),
      s.length + 1, { p := c.p + (4 + (s.length + 1)), remain := c.remain - (4 + (s.length + 1)) }) := by
  have hcryptlen : (crypt seed key longstate (s ++ [0])).length = s.length + 1 := by
    rw [length_crypt, List.length_append, List.length_singleton]
  obtain ⟨hlen, hcrypt⟩ := bytesAt_append_iff.mp hbytes
  rw [length_be32] at hlen hcrypt
  rw [hcryptlen] at hcrypt
  rw [getField, Cursor.skip_eq (by omega), Option.bind_eq_bind, Option.bind_some,
    getBe32_eq hlen (by omega)]
  simp only
  rw [if_neg (by omega), Cursor.skip_eq (by simp only; omega), Option.bind_some, copyField]
  simp only [hcrypt, Nat.add_assoc, Nat.sub_sub]
  rfl

/-- The first encrypted byte stands at the start of the field. -/
private theorem writeBytes_crypt_zero (field : Mem) (seed : UInt8) (s : List UInt8) :
    writeBytes field 0 (crypt seed key longstate (s ++ [0])) 0 = fieldSeed seed key longstate s := by
  have hlen := length_crypt seed key longstate (s ++ [0])
  rw [List.length_append, List.length_singleton] at hlen
  rw [writeBytes, if_pos (by omega)]
  rfl

/-- A string that was decrypted in its array. -/
private theorem bcryptBuf_field (field : Mem) (seed : UInt8) {s : List UInt8}
    (hmalloc : malloc (stateLen (s.length + 1) longstate) = true) :
    bcryptBuf malloc seed key (writeBytes field 0 (crypt seed key longstate (s ++ [0]))) 0 0
      (s.length + 1) longstate = some (writeBytes field 0 (s ++ [0])) := by
  have hlen : (s ++ [0]).length = s.length + 1 := by
    rw [List.length_append, List.length_singleton]
  have hcryptlen := length_crypt seed key longstate (s ++ [0])
  have hbytes := bytesAt_writeBytes_self field 0 (crypt seed key longstate (s ++ [0]))
  rw [hcryptlen] at hbytes
  rw [← hlen] at hmalloc ⊢
  rw [bcryptBuf_crypt seed hmalloc (le_refl 0) hbytes, writeBytes_writeBytes _ _ hcryptlen]

/-- The decrypted bytes are a string of the field. -/
private theorem isString_writeBytes (field : Mem) {size : Nat} {s : List UInt8} (hnul : 0 ∉ s)
    (hfits : s.length < size) : IsString (writeBytes field 0 (s ++ [0])) size s where
  bytes := bytesAt_writeBytes_self _ _ _
  noNul := hnul
  fits := hfits

/-- The parameters and the memory that come out of `decrypt_buf`. -/
structure Recovers (ep : EncParam) (m : Mem) (magic : List UInt8) (seed : UInt8)
    (product version data : List UInt8) : Prop where
  magic : cstring ep.magic encMagicLen = magic
  seed : ep.seed = seed
  product : cstring ep.product encProductLen = product
  version : cstring ep.version encVersionLen = version
  datalen : ep.datalen.toNat = data.length
  csum : ep.csum = buffaloCsum (UInt32.ofNat data.length) data
  content : bytesAt m 0 data.length = data

/-- Both magics are accepted. -/
private theorem checkMagic_eq {p : Nat} {magic : List UInt8}
    (h : bytesAt m p encMagicLen = magic ++ [0])
    (hmagic : magic = ascii "start" ∨ magic = ascii "asar1") : checkMagic m p = true := by
  rw [checkMagic, h]
  rcases hmagic with rfl | rfl <;> decide

/-- The position of the length of the data. -/
def lenPos (product version : List UInt8) : Nat :=
  7 + (4 + (product.length + 1)) + (4 + (version.length + 1))

/-- Where each piece of the file is. -/
structure Laid (ep : EncParam) (m : Mem) (magic product version data : List UInt8) : Prop where
  magicAt : bytesAt m 0 6 = magic ++ [0]
  seedAt : m 6 = ep.seed
  productAt : bytesAt m 7 (fieldBytes ep.seed ep.key ep.longstate product).length =
    fieldBytes ep.seed ep.key ep.longstate product
  versionAt : bytesAt m (7 + (4 + (product.length + 1)))
    (fieldBytes (fieldSeed ep.seed ep.key ep.longstate product) ep.key ep.longstate version).length =
    fieldBytes (fieldSeed ep.seed ep.key ep.longstate product) ep.key ep.longstate version
  datalenAt : bytesAt m (lenPos product version) 4 = be32 ep.datalen.toNat
  dataAt : bytesAt m (lenPos product version + 4) data.length =
    crypt (dataSeed ep product version) ep.key ep.longstate data
  csumAt : bytesAt m (lenPos product version + 4 + data.length) 4 = be32 ep.csum.toNat

/-- A file of these bytes has the parts that it is read by. -/
theorem laid_of_fileBytes {ep : EncParam} {magic product version data : List UInt8}
    (hmagic : magic.length = 5)
    (hfile : bytesAt m 0 (fileBytes ep magic product version data).length =
      fileBytes ep magic product version data) : Laid ep m magic product version data := by
  -- the file is taken apart from its end: checksum, data, length, version, product, seed, magic
  obtain ⟨hfront, hcsum⟩ := bytesAt_append_iff.mp hfile
  obtain ⟨hheader, hcontent⟩ := bytesAt_append_iff.mp hfront
  obtain ⟨hfields, hdatalen⟩ := bytesAt_append_iff.mp hheader
  obtain ⟨hfirst, hversion⟩ := bytesAt_append_iff.mp hfields
  obtain ⟨hstart, hproduct⟩ := bytesAt_append_iff.mp hfirst
  obtain ⟨hmagicAt, hseed⟩ := bytesAt_append_iff.mp hstart
  have hmagicLen : (magic ++ [0]).length = 6 := by
    rw [List.length_append, hmagic, List.length_singleton]
  have hstartLen : (magic ++ [0] ++ [ep.seed]).length = 7 := by
    rw [List.length_append, hmagicLen, List.length_singleton]
  have hfirstLen : (magic ++ [0] ++ [ep.seed] ++
      fieldBytes ep.seed ep.key ep.longstate product).length = 7 + (4 + (product.length + 1)) := by
    rw [List.length_append, hstartLen, length_fieldBytes]
  have hfieldsLen : (magic ++ [0] ++ [ep.seed] ++ fieldBytes ep.seed ep.key ep.longstate product ++
      fieldBytes (fieldSeed ep.seed ep.key ep.longstate product) ep.key ep.longstate version).length =
        lenPos product version := by
    rw [List.length_append, hfirstLen, length_fieldBytes, lenPos]
  have hheaderLen : (headerBytes ep magic product version).length = lenPos product version + 4 := by
    rw [headerBytes, List.length_append, hfieldsLen, length_be32]
  rw [Nat.zero_add] at hproduct hversion hdatalen hcontent hcsum hseed
  rw [hmagicLen] at hmagicAt hseed
  rw [hstartLen] at hproduct
  rw [hfirstLen] at hversion
  rw [hfieldsLen, length_be32] at hdatalen
  rw [hheaderLen, length_crypt] at hcontent
  rw [List.length_append, hheaderLen, length_crypt, length_be32] at hcsum
  exact ⟨hmagicAt, (List.cons.inj hseed).1, hproduct, hversion, hdatalen, hcontent, hcsum⟩

/-- What `decrypt_buf` makes of the bytes that `encrypt_buf` wrote. -/
theorem decryptBuf_eq {ep ep0 : EncParam} {magic product version data : List UInt8} {datalen : Nat}
    (h : ep.Has magic product version)
    (hmagic : magic = ascii "start" ∨ magic = ascii "asar1")
    (hmalloc : HasMemory malloc ep.longstate product version data)
    (hlen : ep.datalen.toNat = data.length)
    (hcsum : ep.csum = buffaloCsum ep.datalen data)
    (hlaid : Laid ep m magic product version data)
    (hdatalen : lenPos product version + 4 + data.length + 4 ≤ datalen)
    (hkey : ep0.key = ep.key) (hlong : ep0.longstate = ep.longstate) :
    ∃ ep' m', decryptBuf malloc ep0 m 0 datalen = some (ep', m') ∧
      Recovers ep' m' magic ep.seed product version data := by
  have hproduct := h.product.fits
  have hversion := h.version.fits
  have hpos : lenPos product version = 7 + (4 + (product.length + 1)) + (4 + (version.length + 1)) :=
    rfl
  rw [encProductLen] at hproduct
  rw [encVersionLen] at hversion
  simp only [decryptBuf, hkey, hlong, Option.bind_eq_bind]
  -- the magic and the seed
  rw [Cursor.skip_eq (by simp only [encMagicLen]; omega), Option.bind_some,
    checkMagic_eq hlaid.magicAt hmagic, if_neg (by decide),
    Cursor.skip_eq (by simp only [encMagicLen]; omega), Option.bind_some]
  simp only [encMagicLen, Nat.zero_add, hlaid.seedAt]
  -- the two strings, which are still encrypted
  rw [getField_eq hlaid.productAt (by simp only; omega) (by simp only [encProductLen]; omega)
    (by decide)]
  simp only [Option.bind_some]
  rw [getField_eq hlaid.versionAt (by simp only; omega) (by simp only [encVersionLen]; omega)
    (by decide)]
  simp only [Option.bind_some]
  -- the data
  rw [Cursor.skip_eq (by simp only; omega), Option.bind_some]
  simp only [show 6 + 1 + (4 + (product.length + 1)) + (4 + (version.length + 1)) =
    lenPos product version from rfl]
  rw [getBe32_eq hlaid.datalenAt (UInt32.toNat_lt _), UInt32.ofNat_toNat, hlen,
    Cursor.skip_eq (by simp only; omega), Option.bind_some]
  simp only [writeBytes_crypt_zero]
  have hdata : bcryptBuf malloc (dataSeed ep product version) ep.key m _ 0 _ ep.longstate = _ :=
    bcryptBuf_crypt _ (hmalloc data.length (by simp)) (Nat.zero_le _) hlaid.dataAt
  rw [← dataSeed, hdata, Option.bind_some, Cursor.skip_eq (by simp only; omega), Option.bind_some]
  -- the check sum, which is behind the data in the buffer and behind where they go
  have hcsumAt : bytesAt (writeBytes m 0 data) (lenPos product version + 4 + data.length) 4 =
      be32 ep.csum.toNat := by
    rw [bytesAt_writeBytes_after _ _ _ (by omega), hlaid.csumAt]
  rw [getBe32_eq hcsumAt (UInt32.toNat_lt _), UInt32.ofNat_toNat, bytesAt_writeBytes_self,
    if_neg (not_not.mpr hcsum.symm)]
  -- the two strings are decrypted in their arrays
  rw [bcryptBuf_field _ _ (hmalloc (version.length + 1) (by simp)), Option.bind_some,
    bcryptBuf_field _ _ (hmalloc (product.length + 1) (by simp)), Option.bind_some]
  refine ⟨_, _, rfl, ?_⟩
  have hmagicBytes : IsString (copyField ep0.magic m 0 6) encMagicLen magic := by
    rw [copyField, hlaid.magicAt]
    exact isString_writeBytes _ h.magic.noNul h.magic.fits
  exact {
    magic := hmagicBytes.cstring_eq
    seed := rfl
    product := (isString_writeBytes _ h.product.noNul h.product.fits).cstring_eq
    version := (isString_writeBytes _ h.version.noNul h.version.fits).cstring_eq
    datalen := hlen
    csum := by
      rw [← hlen, UInt32.ofNat_toNat]
      exact hcsum
    content := bytesAt_writeBytes_self _ _ _ }

/-! ### The round trip -/

/-- `strcpy` leaves a string in the field. -/
private theorem isString_strcpyField {size : Nat} {s : List UInt8} (hnul : 0 ∉ s)
    (hfits : s.length < size) :
    IsString (strcpyField s) size s where
  bytes := by
    have hfield : strcpyField s = fun i => (s ++ [0]).getD i 0 := by
      funext i
      rw [strcpyField]
      rcases Nat.lt_or_ge i s.length with hi | hi
      · rw [List.getD_append _ _ _ _ hi]
      · rw [List.getD_eq_default _ _ hi, List.getD_append_right _ _ _ _ hi]
        cases i - s.length <;> rfl
    rw [hfield, bytesAt_getD (by rw [Nat.zero_add]), List.drop_zero, List.take_length]
  noNul := hnul
  fits := hfits

/-- The parameters have the strings that they were made of. -/
theorem has_encryptParam {magic product version : List UInt8} (seed : UInt8) (data : List UInt8)
    (hmagic : magic = ascii "start" ∨ magic = ascii "asar1") (hproduct : product.length ≤ 31)
    (hproductNul : 0 ∉ product) (hversion : version.length ≤ 7) (hversionNul : 0 ∉ version) :
    (encryptParam key longstate magic seed product version data).Has magic product version := by
  have hlength : magic.length = 5 := by
    rcases hmagic with rfl | rfl <;> rfl
  have hmagicNul : 0 ∉ magic := by
    rcases hmagic with rfl | rfl <;> decide
  exact {
    length_magic := hlength
    magic := isString_strcpyField hmagicNul (by rw [hlength]; decide)
    product := isString_strcpyField hproductNul (Nat.lt_succ_of_le hproduct)
    version := isString_strcpyField hversionNul (Nat.lt_succ_of_le hversion) }

/-- What `encrypt_buf` lays out, `decrypt_buf` recovers, in a buffer of the length that `encrypt_file`
computes or longer. -/
theorem decryptBuf_encryptBuf {magic product version data : List UInt8} {seed : UInt8}
    {ep0 : EncParam} {datalen : Nat}
    (hmagic : magic = ascii "start" ∨ magic = ascii "asar1") (hproduct : product.length ≤ 31)
    (hproductNul : 0 ∉ product) (hversion : version.length ≤ 7) (hversionNul : 0 ∉ version)
    (hdata : data.length < 2 ^ 32) (hmalloc : HasMemory malloc longstate product version data)
    (hbuf : bytesAt m (encComputeHeaderLen product version) data.length = data)
    (hkey : ep0.key = key) (hlong : ep0.longstate = longstate)
    (hdatalen : encComputeBufLen product version data.length ≤ datalen) :
    ∃ m' ep m'', encryptBuf malloc (encryptParam key longstate magic seed product version data) m 0
        (encComputeHeaderLen product version) = some m' ∧
      decryptBuf malloc ep0 m' 0 datalen = some (ep, m'') ∧
      Recovers ep m'' magic seed product version data := by
  have hhas : (encryptParam key longstate magic seed product version data).Has magic product version :=
    has_encryptParam seed data hmagic hproduct hproductNul hversion hversionNul
  have hlen : (UInt32.ofNat data.length).toNat = data.length := UInt32.toNat_ofNat_of_lt' hdata
  -- what was written is laid out as the reader expects it
  have hlaid := laid_of_fileBytes hhas.length_magic (bytesAt_writeBytes_self m 0 (fileBytes
    (encryptParam key longstate magic seed product version data) magic product version data))
  -- the header and the data with their checksum end in the buffer
  have hfits : lenPos product version + 4 + data.length + 4 ≤ datalen := by
    rw [encComputeBufLen, encComputeHeaderLen, encMagicLen] at hdatalen
    rw [lenPos]
    omega
  obtain ⟨ep, m'', hdecrypt, hrecovers⟩ :=
    decryptBuf_eq hhas hmagic hmalloc hlen rfl hlaid hfits hkey hlong
  exact ⟨_, ep, m'', encryptBuf_eq hhas hmalloc hlen hbuf, hdecrypt, hrecovers⟩

/-- A key of one byte. -/
def shortKey : Key where
  bytes := [0x42]
  length_le := by decide
  noNul := by decide

/-- Two bytes of data behind a header. -/
def shortBuf : Mem := writeBytes (fun _ => 0) 23 [0x10, 0x20]

/-- A header with two bytes of data, through both directions. -/
theorem decryptBuf_encryptBuf_short : ∃ m' ep m'',
    encryptBuf (fun _ => true) (encryptParam shortKey true (ascii "start") 0x4F [0x57] [0x31]
      [0x10, 0x20]) shortBuf 0 (encComputeHeaderLen [0x57] [0x31]) = some m' ∧
    decryptBuf (fun _ => true) (encryptParam shortKey true [] 0 [] [] []) m' 0 32 = some (ep, m'') ∧
    Recovers ep m'' (ascii "start") 0x4F [0x57] [0x31] [0x10, 0x20] :=
  decryptBuf_encryptBuf (.inl rfl) (by decide) (by decide) (by decide) (by decide) (by decide)
    (fun _ _ => rfl) (by decide +kernel) rfl rfl (by decide)

end HandsomeMod.Native.Buffalo
