import HandsomeMod.Native.EadCrypt
import HandsomeMod.Spec.EadAuth

/-!
# Encrypted messages

What `ead_encrypt_message` produces, and what a payload must be for `ead_decrypt_message` to accept
it.
-/

namespace HandsomeMod.Native.Ead

open ForStd

/-! ### Block by block -/

/-- `f` maps blocks to blocks. -/
def KeepsBlocks (f : List UInt8 → List UInt8) : Prop := ∀ b, b.length = 16 → (f b).length = 16

/-- A cipher that keeps blocks keeps the length of the data. -/
private theorem length_mapBlocks {f : List UInt8 → List UInt8} (hf : KeepsBlocks f) (n : Nat)
    (data : List UInt8) (h : 16 * n ≤ data.length) : (mapBlocks f n data).length = data.length := by
  induction n generalizing data with
  | zero => rfl
  | succ n ih =>
    have htake : (data.take 16).length = 16 := by rw [List.length_take]; omega
    have hdrop : 16 * n ≤ (data.drop 16).length := by rw [List.length_drop]; omega
    rw [mapBlocks, List.length_append, hf _ htake, ih _ hdrop, List.length_drop]
    omega

/-- The first blocks of the result come from the first blocks of the data. -/
private theorem take_mapBlocks {f : List UInt8 → List UInt8} (hf : KeepsBlocks f) {k n : Nat}
    (data : List UInt8) (hkn : k ≤ n) (h : 16 * n ≤ data.length) :
    (mapBlocks f n data).take (16 * k) = mapBlocks f k (data.take (16 * k)) := by
  induction k generalizing n data with
  | zero => simp [mapBlocks]
  | succ k ih =>
    obtain ⟨n, rfl⟩ : ∃ m, n = m + 1 := ⟨n - 1, by omega⟩
    have htake : (data.take 16).length = 16 := by rw [List.length_take]; omega
    have hdrop : 16 * n ≤ (data.drop 16).length := by rw [List.length_drop]; omega
    rw [mapBlocks, mapBlocks, List.take_append, hf _ htake, List.take_of_length_le (by
      rw [hf _ htake]; omega), show 16 * (k + 1) - 16 = 16 * k by omega,
      ih _ (by omega) hdrop, List.take_take, Nat.min_eq_left (by omega), List.drop_take,
      show 16 * (k + 1) - 16 = 16 * k by omega]

/-- Blocks that are mapped there and back. -/
private theorem mapBlocks_mapBlocks {f g : List UInt8 → List UInt8} (hg : KeepsBlocks g)
    (hfg : ∀ b, b.length = 16 → f (g b) = b) (n : Nat) (data : List UInt8)
    (h : 16 * n ≤ data.length) : mapBlocks f n (mapBlocks g n data) = data := by
  induction n generalizing data with
  | zero => rfl
  | succ n ih =>
    have htake : (data.take 16).length = 16 := by rw [List.length_take]; omega
    have hdrop : 16 * n ≤ (data.drop 16).length := by rw [List.length_drop]; omega
    rw [mapBlocks, mapBlocks, List.take_left' (hg _ htake), List.drop_left' (hg _ htake),
      hfg _ htake, ih _ hdrop, List.take_append_drop]

/-! ### Encryption -/

/-- A payload decrypted block by block. -/
def plainOf (p : Prims) (key payload : List UInt8) : List UInt8 :=
  mapBlocks (p.rijndaelDecrypt key) (payload.length / 16) payload

/-- The message whose hash a payload carries. -/
def hashedOf (p : Prims) (key payload : List UInt8) : List UInt8 :=
  clearHash (plainOf p key payload)

/-- A payload of whole hash blocks that carries the hash of its message. -/
structure IsMessage (p : Prims) (key payload : List UInt8) : Prop where
  pos : 0 < payload.length
  length : payload.length % 64 = 0
  hash : (plainOf p key payload).take 20 = p.sha (hashedOf p key payload)

/-- A message is padded to blocks of 64 bytes, and not empty. -/
theorem length_plainMessage (iv : UInt32) (body : List UInt8) (fill : Mem) :
    0 < (plainMessage iv body fill).length ∧ (plainMessage iv body fill).length % 64 = 0 := by
  simp only [plainMessage, htonlBytes, sizeofEncrypted, eadEncPad, List.length_append,
    List.length_replicate, List.length_map, List.length_range, List.length_cons, List.length_nil]
  omega

/-- The hash field of a new message is clear. -/
theorem clearHash_plainMessage (iv : UInt32) (body : List UInt8) (fill : Mem) :
    clearHash (plainMessage iv body fill) = plainMessage iv body fill := by
  simp only [clearHash, plainMessage, List.append_assoc]
  rw [List.drop_left' (List.length_replicate ..)]

/-- The hash field is the first 20 bytes. -/
theorem clearHash_append {hash enc : List UInt8} (h : hash.length = 20) :
    clearHash (hash ++ enc.drop 20) = clearHash enc := by
  rw [clearHash, List.drop_left' h, clearHash]

/-- Taking the next IV changes the sending side only. -/
private theorem eadGetTxIv_frame (c : Crypt) :
    (eadGetTxIv c).1.key = c.key ∧ (eadGetTxIv c).1.rxIv = c.rxIv :=
  ⟨rfl, rfl⟩

/-- An encrypted message decrypts to the message with its hash in front. -/
theorem plainOf_encrypt (p : Prims) (c : Crypt) (body : List UInt8) (fill : Mem) :
    (eadEncryptMessage p c body fill).2.length =
        (plainMessage (eadGetTxIv c).2 body fill).length ∧
      plainOf p c.key (eadEncryptMessage p c body fill).2 =
        p.sha (plainMessage (eadGetTxIv c).2 body fill) ++
          (plainMessage (eadGetTxIv c).2 body fill).drop 20 := by
  obtain ⟨hpos, hmod⟩ := length_plainMessage (eadGetTxIv c).2 body fill
  have hclear := clearHash_plainMessage (eadGetTxIv c).2 body fill
  simp only [eadEncryptMessage, (eadGetTxIv_frame c).1]
  generalize plainMessage (eadGetTxIv c).2 body fill = m at hpos hmod hclear ⊢
  rw [eadHashMessage, hclear, List.take_length]
  have hlen : (p.sha m ++ m.drop 20).length = m.length := by
    rw [List.length_append, p.length_sha, List.length_drop]
    omega
  -- whole blocks only, so decryption meets what encryption wrote
  have hblocks : 16 * ((p.sha m ++ m.drop 20).length / 16) ≤ (p.sha m ++ m.drop 20).length := by
    omega
  have hcipher := length_mapBlocks (p.length_rijndaelEncrypt c.key) _ _ hblocks
  refine ⟨hcipher.trans hlen, ?_⟩
  rw [plainOf, hcipher]
  exact mapBlocks_mapBlocks (p.length_rijndaelEncrypt c.key) (p.decrypt_encrypt c.key) _ _ hblocks

/-- An encrypted message carries the hash of its message; key and receive IV stay. -/
theorem eadEncryptMessage_spec (p : Prims) (c : Crypt) (body : List UInt8) (fill : Mem) :
    IsMessage p c.key (eadEncryptMessage p c body fill).2 ∧
      (eadEncryptMessage p c body fill).1.key = c.key ∧
      (eadEncryptMessage p c body fill).1.rxIv = c.rxIv := by
  refine ⟨?_, rfl, rfl⟩
  obtain ⟨hpos, hmod⟩ := length_plainMessage (eadGetTxIv c).2 body fill
  obtain ⟨hlen, hplain⟩ := plainOf_encrypt p c body fill
  refine ⟨by omega, by omega, ?_⟩
  rw [hashedOf, hplain, clearHash_append (p.length_sha _), clearHash_plainMessage,
    List.take_left' (p.length_sha _)]

/-! ### Decryption -/

/-- The initialization vector in a payload. -/
def ivOf (p : Prims) (key payload : List UInt8) : UInt32 :=
  ntohlAt (memOf (plainOf p key payload)) 20

/-- An IV that is accepted is above the last one, and becomes the last one. -/
theorem eadCheckRxIv_spec {iv : UInt32} {c c' : Crypt} (h : eadCheckRxIv iv c = some c') :
    c.rxIv < iv ∧ c'.rxIv = iv ∧ c'.key = c.key := by
  simp only [eadCheckRxIv] at h
  split at h
  · cases h
  · rename_i hiv
    split at h
    · cases h
    · cases h
      exact ⟨UInt32.not_le.mp hiv, rfl, rfl⟩

/-- Decryption keeps the key, and the receive IV does not go down. -/
theorem eadDecryptMessage_frame (p : Prims) (c : Crypt) (len : UInt32) (data : List UInt8) :
    (eadDecryptMessage p c len data).1.key = c.key ∧
      c.rxIv ≤ (eadDecryptMessage p c len data).1.rxIv := by
  simp only [eadDecryptMessage]
  split
  · exact ⟨rfl, UInt32.le_refl _⟩
  · split
    · exact ⟨rfl, UInt32.le_refl _⟩
    · split
      · exact ⟨rfl, UInt32.le_refl _⟩
      -- the IV moves up before the hash is looked at
      · rename_i c' hcheck
        obtain ⟨hlt, hrx, hkey⟩ := eadCheckRxIv_spec hcheck
        split
        · exact ⟨hkey, hrx ▸ UInt32.le_of_lt hlt⟩
        · exact ⟨hkey, hrx ▸ UInt32.le_of_lt hlt⟩

/-- For a length that is an `int` the result is one as well. -/
theorem eadDecryptReturn_eq (p : Prims) (c : Crypt) {len : UInt32} (data : List UInt8)
    (hint : len.toNat < 2 ^ 31) :
    eadDecryptReturn p c len data = (eadDecryptMessage p c len data).2.1 := by
  have hlen : msgLen len = len.toNat := by
    rw [msgLen, if_pos (by omega)]
  -- the result is in the range of `int`, so the conversion keeps it
  suffices hres : -128 ≤ (eadDecryptMessage p c len data).2.1 ∧
      (eadDecryptMessage p c len data).2.1 < 2 ^ 31 by
    rw [eadDecryptReturn]
    exact Int.bmod_eq_of_le (by omega) (by omega)
  have hzero : -128 ≤ (0 : Int) ∧ (0 : Int) < 2 ^ 31 := by decide
  simp only [eadDecryptMessage, hlen]
  split
  · exact hzero
  · split
    · exact hzero
    · rename_i hpad
      rw [eadEncPad] at hpad
      split
      · exact hzero
      · split
        · -- the header and the padding together are shorter than 128 bytes
          rw [sizeofEncrypted]
          constructor
          · show -128 ≤ _ - _
            omega
          · show _ - _ < _
            omega
        · exact hzero

/-- A length that is not negative as an `int`. -/
theorem msgLen_pos {len : UInt32} (h : 0 < msgLen len) : msgLen len = (len.toNat : Int) := by
  simp only [msgLen] at h ⊢
  split at h
  · rename_i hlt
    rw [if_pos hlt]
  · have := len.toNat_lt
    omega

/-- Clearing the hash field of the first bytes. -/
theorem clearHash_take {enc : List UInt8} {n : Nat} (h : 20 ≤ n) :
    (clearHash enc).take n = clearHash (enc.take n) := by
  rw [clearHash, clearHash, List.take_append, List.length_replicate,
    List.take_of_length_le (by rw [List.length_replicate]; exact h), List.drop_take]

/-- A field is read of the first bytes. -/
theorem ntohlAt_take {enc : List UInt8} {n start : Nat} (h : start + 4 ≤ n) :
    ntohlAt (memOf (enc.take n)) start = ntohlAt (memOf enc) start := by
  rw [ntohlAt, ntohlAt]
  congr 1
  apply loadBE_congr
  intro i hi
  simp only [memOf, List.getD_eq_getElem?_getD]
  rw [List.getElem?_take_of_lt (by omega)]

/-- Decrypting a whole number of blocks of a buffer decrypts these blocks. -/
theorem plainOf_take (p : Prims) (key : List UInt8) {data : List UInt8} {n : Nat}
    (hn : n % 16 = 0) (hle : n ≤ data.length) : plainOf p key (data.take n) =
      (mapBlocks (p.rijndaelDecrypt key) ((n + 15) / 16) data).take n := by
  have hblocks := take_mapBlocks (p.length_rijndaelDecrypt key) data (Nat.le_refl (n / 16))
    (by omega)
  rw [show 16 * (n / 16) = n by omega] at hblocks
  rw [plainOf, List.length_take, Nat.min_eq_left hle, show (n + 15) / 16 = n / 16 by omega,
    hblocks]

/-- A payload that is accepted with a positive length carries the hash of its message and an IV
    beyond those accepted before. -/
theorem eadDecryptMessage_accept {p : Prims} {c : Crypt} {len : UInt32} {data : List UInt8}
    (hdata : len.toNat ≤ data.length) (hn : (eadDecryptMessage p c len data).2.1 > 0) :
    IsMessage p c.key (data.take (msgLen len).toNat) ∧
      c.rxIv < ivOf p c.key (data.take (msgLen len).toNat) ∧
      (eadDecryptMessage p c len data).1.rxIv = ivOf p c.key (data.take (msgLen len).toNat) := by
  simp only [eadDecryptMessage] at hn ⊢
  -- a positive result passed all the checks: length, padding, IV and hash
  split at hn
  · exact absurd hn (Int.lt_irrefl 0)
  · rename_i hlen
    rw [if_neg hlen]
    split at hn
    · exact absurd hn (Int.lt_irrefl 0)
    · rename_i hpad
      rw [if_neg hpad]
      split at hn
      · exact absurd hn (Int.lt_irrefl 0)
      · rename_i c' hcheck
        obtain ⟨hlt, hrx, -⟩ := eadCheckRxIv_spec hcheck
        split at hn
        · rename_i hhash
          rw [if_pos hhash]
          have hpos : 0 < msgLen len := by
            have := Int.natCast_nonneg ((memOf (mapBlocks (p.rijndaelDecrypt c.key)
              (((msgLen len).toNat + 15) / 16) data) 24).toNat + sizeofEncrypted)
            simp only at hn
            omega
          have hint := msgLen_pos hpos
          rw [hint, Int.toNat_natCast] at hhash hrx hlt
          rw [hint] at hlen hpos ⊢
          rw [Int.toNat_natCast]
          -- the length passed is a multiple of the hash block
          have hmod : len.toNat % 64 = 0 := by
            rw [← Int.ofNat_tmod, eadEncPad] at hlen
            omega
          have hplain := plainOf_take p c.key (n := len.toNat) (by omega) hdata
          have hiv : ivOf p c.key (data.take len.toNat) = c'.rxIv := by
            rw [ivOf, hplain, ntohlAt_take (by omega), hrx]
          have hlength : (data.take len.toNat).length = len.toNat := by
            rw [List.length_take, Nat.min_eq_left hdata]
          refine ⟨⟨by omega, by omega, ?_⟩, ?_, hiv.symm⟩
          · rw [hashedOf, hplain, ← clearHash_take (by omega), List.take_take,
              Nat.min_eq_left (by omega), hhash, eadHashMessage]
          · rw [hiv, hrx]
            exact hlt
        · exact absurd hn (Int.lt_irrefl 0)

/-! ### Two payloads from one buffer -/

/-- Decryption keeps the length. -/
theorem IsMessage.length_plainOf {p : Prims} {key payload : List UInt8}
    (h : IsMessage p key payload) : (plainOf p key payload).length = payload.length :=
  length_mapBlocks (p.length_rijndaelDecrypt key) _ _ (by have := h.length; omega)

/-- The hashed message has the length of the payload. -/
theorem IsMessage.length_hashedOf {p : Prims} {key payload : List UInt8}
    (h : IsMessage p key payload) : (hashedOf p key payload).length = payload.length := by
  have hlen := h.length_plainOf
  have hpos := h.pos
  have hmod := h.length
  rw [hashedOf, clearHash, List.length_append, List.length_replicate, List.length_drop]
  omega

/-- The hash of a message lies in the first two cipher blocks. -/
theorem IsMessage.take_plainOf {p : Prims} {key payload data : List UInt8}
    (h : IsMessage p key payload) (hpre : payload <+: data) :
    (plainOf p key payload).take 20 =
      (mapBlocks (p.rijndaelDecrypt key) 2 (data.take 32)).take 20 := by
  have hpos := h.pos
  have hmod := h.length
  have hblocks := take_mapBlocks (p.length_rijndaelDecrypt key) payload
    (show 2 ≤ payload.length / 16 by omega) (by omega)
  have htake : data.take 32 = payload.take 32 := by
    obtain ⟨rest, rfl⟩ := hpre
    rw [List.take_append_of_le_length (by omega)]
  rw [htake, ← hblocks, List.take_take]
  rfl

/-- Two payloads at the start of one buffer are the same, if their messages do not collide. -/
theorem IsMessage.eq_of_prefix {p : Prims} {key payload payload' data : List UInt8}
    (h : IsMessage p key payload) (h' : IsMessage p key payload') (hpre : payload <+: data)
    (hpre' : payload' <+: data)
    (hinj : p.sha (hashedOf p key payload) = p.sha (hashedOf p key payload') →
      hashedOf p key payload = hashedOf p key payload') : payload = payload' := by
  have hsha : p.sha (hashedOf p key payload) = p.sha (hashedOf p key payload') := by
    rw [← h.hash, ← h'.hash, h.take_plainOf hpre, h'.take_plainOf hpre']
  have hlen : payload.length = payload'.length := by
    rw [← h.length_hashedOf, ← h'.length_hashedOf, hinj hsha]
  rw [List.prefix_iff_eq_take.mp hpre, List.prefix_iff_eq_take.mp hpre', hlen]

end HandsomeMod.Native.Ead

/-!
## Rejected messages

A message that `ead_decrypt_message` rejects should leave the receive IV alone. The check of the
window moves it, before the hash is looked at: a payload whose IV is in the window changes the state
whatever its hash is.
-/

namespace HandsomeMod.Native.Ead

open ForStd

variable {p : Prims} {c : Crypt} {netlen : UInt32} {data : List UInt8}

/-- The message buffer after decryption. -/
def decrypted (p : Prims) (key : List UInt8) (netlen : UInt32) (data : List UInt8) : List UInt8 :=
  mapBlocks (p.rijndaelDecrypt key) (((msgLen netlen).toNat + 15) / 16) data

/-- The length is that of whole hash blocks, or negative. -/
def GoodLength (netlen : UInt32) : Prop :=
  msgLen netlen ≠ 0 ∧ (msgLen netlen).tmod eadEncPad ≤ 0

/-- The byte with the length of the padding. -/
def padByte (enc : List UInt8) : Nat := (memOf enc 24).toNat

/-- The IV is above the last one, and at most 128 above it. -/
def InWindow (rxIv iv : UInt32) : Prop := rxIv < iv ∧ iv ≤ rxIv + eadMaxIvIncr

/-- The payload gets as far as the window, and its IV is in it. -/
structure TakesIv (p : Prims) (c : Crypt) (netlen : UInt32) (data : List UInt8) : Prop where
  length : GoodLength netlen
  pad : padByte (decrypted p c.key netlen data) < eadEncPad
  window : InWindow c.rxIv (ntohlAt (memOf (decrypted p c.key netlen data)) 20)

/-- The hash is that of the message, and data is left behind the padding. -/
structure HasData (p : Prims) (c : Crypt) (netlen : UInt32) (data : List UInt8) : Prop where
  hash : (decrypted p c.key netlen data).take 20 =
    eadHashMessage p (decrypted p c.key netlen data) (msgLen netlen).toNat
  left : 0 < Int.bmod (msgLen netlen -
    (padByte (decrypted p c.key netlen data) + sizeofEncrypted : Nat)) (2 ^ 32)

/-- An IV in the window is accepted. -/
theorem eadCheckRxIv_of_inWindow {iv : UInt32} (h : InWindow c.rxIv iv) :
    eadCheckRxIv iv c = some { c with rxIv := iv } := by
  rw [eadCheckRxIv, if_neg (UInt32.not_le.mpr h.1), if_neg (UInt32.not_lt.mpr h.2)]

/-- An IV outside of the window is refused. -/
private theorem eadCheckRxIv_of_not_inWindow {iv : UInt32} (h : ¬InWindow c.rxIv iv) :
    eadCheckRxIv iv c = none := by
  rw [eadCheckRxIv]
  by_cases hle : iv ≤ c.rxIv
  · rw [if_pos hle]
  · rw [if_neg hle, if_pos]
    exact UInt32.not_le.mp fun hmax => h ⟨UInt32.not_le.mp hle, hmax⟩

/-- `ead_decrypt_message` by what it decrypts. -/
theorem eadDecryptMessage_decrypted (p : Prims) (c : Crypt) (netlen : UInt32) (data : List UInt8) :
    eadDecryptMessage p c netlen data =
      let enc := decrypted p c.key netlen data
      if msgLen netlen = 0 ∨ (msgLen netlen).tmod eadEncPad > 0 then (c, 0, data)
      else if padByte enc ≥ eadEncPad then (c, 0, enc)
      else
        match eadCheckRxIv (ntohlAt (memOf enc) 20) c with
        | none => (c, 0, enc)
        | some c =>
          if enc.take 20 = eadHashMessage p enc (msgLen netlen).toNat then
            (c, msgLen netlen - (padByte enc + sizeofEncrypted : Nat), clearHash enc)
          else (c, 0, clearHash enc) := rfl

/-- A payload that does not get past the window is rejected and changes nothing. -/
theorem eadDecryptMessage_of_not_takesIv (h : ¬TakesIv p c netlen data) :
    (eadDecryptMessage p c netlen data).1 = c ∧ eadDecryptReturn p c netlen data = 0 := by
  suffices hres : (eadDecryptMessage p c netlen data).1 = c ∧
      (eadDecryptMessage p c netlen data).2.1 = 0 by
    refine ⟨hres.1, ?_⟩
    rw [eadDecryptReturn, hres.2]
    rfl
  rw [eadDecryptMessage_decrypted]
  simp only
  -- length and padding passed, it is the IV that is not in the window
  by_cases hlen : GoodLength netlen
  swap
  · rw [if_pos]
    · exact ⟨rfl, rfl⟩
    · simp only [GoodLength] at hlen
      omega
  rw [if_neg (by have := hlen.1; have := hlen.2; omega)]
  by_cases hpad : padByte (decrypted p c.key netlen data) < eadEncPad
  swap
  · rw [if_pos]
    · exact ⟨rfl, rfl⟩
    · exact Nat.not_lt.mp hpad
  rw [if_neg (Nat.not_le.mpr hpad)]
  have hwindow : ¬InWindow c.rxIv (ntohlAt (memOf (decrypted p c.key netlen data)) 20) :=
    fun hwindow => h ⟨hlen, hpad, hwindow⟩
  rw [eadCheckRxIv_of_not_inWindow hwindow]
  exact ⟨rfl, rfl⟩

/-- Past the window the receive IV has moved, and the hash decides about the result. -/
theorem eadDecryptMessage_of_takesIv (h : TakesIv p c netlen data) :
    (eadDecryptMessage p c netlen data).1.rxIv =
        ntohlAt (memOf (decrypted p c.key netlen data)) 20 ∧
      (eadDecryptReturn p c netlen data ≤ 0 ↔ ¬HasData p c netlen data) := by
  have hlen := h.length
  rw [eadDecryptReturn, eadDecryptMessage_decrypted]
  simp only
  rw [if_neg (by have := hlen.1; have := hlen.2; omega), if_neg (Nat.not_le.mpr h.pad),
    eadCheckRxIv_of_inWindow h.window]
  simp only
  -- the IV is stored before the hash is compared
  by_cases hhash : (decrypted p c.key netlen data).take 20 =
      eadHashMessage p (decrypted p c.key netlen data) (msgLen netlen).toNat
  · rw [if_pos hhash]
    refine ⟨rfl, ?_⟩
    show Int.bmod (msgLen netlen - (padByte (decrypted p c.key netlen data) +
      sizeofEncrypted : Nat)) (2 ^ 32) ≤ 0 ↔ _
    constructor
    · intro hle hdata
      exact absurd hdata.left (Int.not_lt.mpr hle)
    · intro hnot
      exact Int.not_lt.mp fun hleft => hnot ⟨hhash, hleft⟩
  · rw [if_neg hhash]
    refine ⟨rfl, ?_⟩
    show Int.bmod 0 (2 ^ 32) ≤ 0 ↔ _
    exact ⟨fun _ hdata => hhash hdata.hash, fun _ => by decide⟩

/-- A rejected payload leaves the receive IV as it is exactly if it does not get past the window: a
    payload that does moves the IV, unless it has the right hash and data. -/
theorem eadDecryptMessage_reject_iff (p : Prims) (c : Crypt) (netlen : UInt32) (data : List UInt8) :
    (eadDecryptReturn p c netlen data ≤ 0 →
        (eadDecryptMessage p c netlen data).1.rxIv = c.rxIv) ↔
      (TakesIv p c netlen data → HasData p c netlen data) := by
  by_cases h : TakesIv p c netlen data
  · obtain ⟨hiv, hret⟩ := eadDecryptMessage_of_takesIv h
    -- the IV in the window is another one
    have hmoves : (eadDecryptMessage p c netlen data).1.rxIv ≠ c.rxIv := by
      rw [hiv]
      exact (UInt32.ne_of_lt h.window.1).symm
    rw [hret]
    constructor
    · intro hkeep _
      by_contra hdata
      exact hmoves (hkeep hdata)
    · intro hdata hnot
      exact absurd (hdata h) hnot
  · obtain ⟨hkeep, -⟩ := eadDecryptMessage_of_not_takesIv h
    simp [hkeep, h]

/-- The state of a receiver that expects `toyCommand`. -/
def toyReceiver : Crypt := eadSetKey toyPrims (List.replicate 40 1) initServer.crypt

/-- `toyCommand` with another byte in the third block, behind those with the hash, the IV and the
    length of the padding. -/
def toyForged : List UInt8 := toyCommand.set 32 0

/-- A forged payload is rejected, and then the genuine one as well. -/
theorem toyForged_moves_iv :
    eadDecryptReturn toyPrims toyReceiver 64 toyForged = 0 ∧
      (eadDecryptMessage toyPrims toyReceiver 64 toyForged).1.rxIv ≠ toyReceiver.rxIv ∧
      eadDecryptReturn toyPrims toyReceiver 64 toyCommand = 6 ∧
      eadDecryptReturn toyPrims (eadDecryptMessage toyPrims toyReceiver 64 toyForged).1 64
        toyCommand = 0 := by
  refine ⟨rfl, ?_, rfl, rfl⟩
  decide

end HandsomeMod.Native.Ead
