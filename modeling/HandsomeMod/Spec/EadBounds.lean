import HandsomeMod.Native.Ead
import HandsomeMod.Spec.EadCryptCorrect

/-!
# Where the handlers leave the packet

The handlers of the emergency access daemon take their lengths from the message header and from what
they decrypt. `handle_send_a` copies a negative number of bytes for an empty message, and
`handle_send_cmd` ends a command without padding with a NUL behind the message. For packets that are
captured as a whole there is no other way out of bounds.
-/

namespace HandsomeMod.Native.Ead

open ForStd Access

variable {p : Prims} {c : Crypt} {netlen : UInt32} {data : List UInt8} {cfg : Config} {pkt : Packet}
  {s : Server} {type : EadType}

/-! ### Lengths -/

/-- A length that passes the checks is negative, or a positive multiple of 64. -/
theorem GoodLength.cases (h : GoodLength netlen) :
    msgLen netlen < 0 ∨ ∃ n : Nat, msgLen netlen = (n : Int) ∧ 64 ≤ n ∧ n % 64 = 0 := by
  obtain ⟨hne, hmod⟩ := h
  by_cases hneg : msgLen netlen < 0
  · exact .inl hneg
  · obtain ⟨n, hn⟩ := Int.eq_ofNat_of_zero_le (Int.not_lt.mp hneg)
    rw [hn, eadEncPad, ← Int.ofNat_tmod] at hmod
    exact .inr ⟨n, hn, by omega, by omega⟩

/-- The length of `A` is not negative for messages of 1 to `2 ^ 31` bytes. -/
private theorem msgLen_pred (v : UInt32) :
    (0 ≤ msgLen (v - 1) ↔ 1 ≤ v.toNat ∧ v.toNat ≤ 2 ^ 31) ∧
      (1 ≤ v.toNat → v.toNat ≤ 2 ^ 31 → msgLen (v - 1) = v.toNat - 1) := by
  have hlt := v.toNat_lt
  have hsub : (v - 1).toNat = (2 ^ 32 - 1 + v.toNat) % 2 ^ 32 := by
    rw [UInt32.toNat_sub]
    rfl
  rw [msgLen, hsub]
  -- only 0 wraps
  by_cases hzero : v.toNat = 0
  · rw [hzero]
    refine ⟨?_, ?_⟩
    · decide
    · omega
  · rw [show (2 ^ 32 - 1 + v.toNat) % 2 ^ 32 = v.toNat - 1 by omega]
    split <;> constructor <;> omega

/-- The first NUL, if there is one. -/
private theorem length_cString_lt : (cString data).length < data.length ↔ 0 ∈ data := by
  induction data with
  | nil => simp [cString]
  | cons b data ih =>
    by_cases hb : b = 0
    · subst hb
      simp [cString]
    · have hne : (b != 0) = true := by simpa using hb
      have hcons : cString (b :: data) = b :: cString data := List.takeWhile_cons_of_pos hne
      rw [hcons, List.length_cons, List.length_cons, Nat.add_lt_add_iff_right, ih, List.mem_cons]
      simp [Ne.symm hb]

/-- A string ends in its data or where they end. -/
private theorem length_cString_le (data : List UInt8) : (cString data).length ≤ data.length :=
  (List.takeWhile_prefix _).length_le

/-! ### `ead_decrypt_message` and `handle_send_cmd` -/

/-- The hash is that of the message, and a command is left behind header, padding and the header of
    the command. -/
structure HasCommand (p : Prims) (c : Crypt) (netlen : UInt32) (data : List UInt8) : Prop where
  hash : (decrypted p c.key netlen data).take 20 =
    eadHashMessage p (decrypted p c.key netlen data) (msgLen netlen).toNat
  left : 0 < Int.bmod (Int.bmod (msgLen netlen -
    (padByte (decrypted p c.key netlen data) + sizeofEncrypted : Nat)) (2 ^ 32) - 3) (2 ^ 32)

/-- The accesses of `ead_decrypt_message` by what it decrypts. -/
private theorem eadDecryptAccesses_decrypted (p : Prims) (c : Crypt) (netlen : UInt32)
    (data : List UInt8) :
    eadDecryptAccesses p c netlen data =
      if msgLen netlen = 0 ∨ (msgLen netlen).tmod eadEncPad > 0 then []
      else
        [.bytes 0 (16 * (((msgLen netlen).toNat + 15) / 16) : Nat) data.length,
            .bytes 24 1 data.length] ++
          if padByte (decrypted p c.key netlen data) ≥ eadEncPad then []
          else
            [.bytes 20 4 data.length] ++
              match eadCheckRxIv (ntohlAt (memOf (decrypted p c.key netlen data)) 20) c with
              | none => []
              | some _ => [.bytes 0 20 data.length,
                  .bytes 0 (64 * (((msgLen netlen).toNat + 63) / 64) : Nat) data.length] := rfl

/-- The padding, the IV and the hash are in the first block, or read for a negative length too. -/
private theorem eadDecryptAccesses_allIn (p : Prims) (c : Crypt) (netlen : UInt32)
    (data : List UInt8) :
    AllIn (eadDecryptAccesses p c netlen data) ↔
      (GoodLength netlen → msgLen netlen ≤ data.length ∧ 25 ≤ data.length) := by
  rw [eadDecryptAccesses_decrypted]
  -- a bad length is refused before anything is read
  by_cases hgood : GoodLength netlen
  swap
  · rw [if_pos]
    · simp [hgood]
    · simp only [GoodLength] at hgood
      omega
  rw [if_neg (by have := hgood.1; have := hgood.2; omega), allIn_append, allIn_cons, allIn_cons,
    inBounds_bytes, inBounds_bytes]
  -- the blocks and the hashed bytes are those of the length
  have hblocks : ((16 * (((msgLen netlen).toNat + 15) / 16) : Nat) : Int) ≤ data.length ∧
      25 ≤ data.length → ((64 * (((msgLen netlen).toNat + 63) / 64) : Nat) : Int) ≤ data.length ∧
        msgLen netlen ≤ data.length := by
    obtain hneg | ⟨n, hn, -, hmod⟩ := hgood.cases
    · rw [Int.toNat_of_nonpos (by omega)]
      omega
    · rw [hn, Int.toNat_natCast]
      omega
  have hlength : msgLen netlen ≤ data.length →
      ((16 * (((msgLen netlen).toNat + 15) / 16) : Nat) : Int) ≤ data.length := by
    obtain hneg | ⟨n, hn, -, hmod⟩ := hgood.cases
    · rw [Int.toNat_of_nonpos (by omega)]
      omega
    · rw [hn, Int.toNat_natCast]
      omega
  constructor
  · rintro ⟨⟨hdata, hpad, -⟩, -⟩ -
    exact ⟨(hblocks ⟨by omega, by omega⟩).2, by omega⟩
  · intro hfits
    obtain ⟨hle, hhead⟩ := hfits hgood
    have hwhole := hlength hle
    have hhash := (hblocks ⟨hwhole, hhead⟩).1
    refine ⟨⟨by omega, by omega, allIn_nil⟩, ?_⟩
    split
    · exact allIn_nil
    · rw [allIn_append, allIn_cons, inBounds_bytes]
      refine ⟨⟨by omega, allIn_nil⟩, ?_⟩
      split
      · exact allIn_nil
      · rw [allIn_cons, allIn_cons, inBounds_bytes, inBounds_bytes]
        exact ⟨by omega, by omega, allIn_nil⟩

/-- What is returned for a payload in the window. -/
private theorem eadDecryptReturn_of_takesIv (h : TakesIv p c netlen data) :
    eadDecryptReturn p c netlen data =
      if (decrypted p c.key netlen data).take 20 =
          eadHashMessage p (decrypted p c.key netlen data) (msgLen netlen).toNat then
        Int.bmod (msgLen netlen -
          (padByte (decrypted p c.key netlen data) + sizeofEncrypted : Nat)) (2 ^ 32)
      else 0 := by
  have hlen := h.length
  rw [eadDecryptReturn, eadDecryptMessage_decrypted]
  simp only
  rw [if_neg (by have := hlen.1; have := hlen.2; omega), if_neg (Nat.not_le.mpr h.pad),
    eadCheckRxIv_of_inWindow h.window]
  simp only
  split
  · rfl
  · rfl

/-- `datalen` is positive for a payload in the window that has a command. -/
private theorem cmdLen_pos : 0 < cmdLen p c netlen data ↔
    TakesIv p c netlen data ∧ HasCommand p c netlen data := by
  rw [cmdLen]
  by_cases h : TakesIv p c netlen data
  · rw [eadDecryptReturn_of_takesIv h]
    by_cases hhash : (decrypted p c.key netlen data).take 20 =
        eadHashMessage p (decrypted p c.key netlen data) (msgLen netlen).toNat
    · rw [if_pos hhash]
      exact ⟨fun hleft => ⟨h, hhash, hleft⟩, fun hcmd => hcmd.2.left⟩
    · rw [if_neg hhash]
      exact ⟨fun hleft => absurd hleft (by decide), fun hcmd => absurd hcmd.2.hash hhash⟩
  · rw [(eadDecryptMessage_of_not_takesIv h).2]
    exact ⟨fun hleft => absurd hleft (by decide), fun hcmd => absurd hcmd.1 h⟩

/-- Where the command ends. -/
private theorem cmdLen_of_pos (h : TakesIv p c netlen data) (hcmd : HasCommand p c netlen data)
    (hlen : 0 < msgLen netlen) :
    cmdLen p c netlen data = msgLen netlen - padByte (decrypted p c.key netlen data) - 28 := by
  have hpad := h.pad
  rw [eadEncPad] at hpad
  have hmax : msgLen netlen < 2 ^ 31 := by
    have hlt := netlen.toNat_lt
    rw [msgLen]
    split <;> omega
  -- a length this small is not reduced to 32 bits
  have hsmall {i : Int} (hi : -128 ≤ i) (hi' : i < 2 ^ 31) : Int.bmod i (2 ^ 32) = i :=
    Int.bmod_eq_of_le (by omega) (by omega)
  have hreturn : eadDecryptReturn p c netlen data =
      msgLen netlen - (padByte (decrypted p c.key netlen data) + 25 : Nat) := by
    rw [eadDecryptReturn_of_takesIv h, if_pos hcmd.hash, sizeofEncrypted,
      hsmall (by omega) (by omega)]
  rw [cmdLen, hreturn, hsmall (by omega) (by omega)]
  omega

/-! ### The handlers -/

/-- What a packet must be for a handler to stay in bounds. -/
def Fits (cfg : Config) (pkt : Packet) (s : Server) : EadType → Prop
  | .setUsername => 0 ∈ pkt.data ∨ 32 ≤ pkt.data.length
  | .sendA => 1 ≤ pkt.len.toNat ∧ pkt.len.toNat ≤ 2 ^ 31 ∧
      (pkt.len.toNat ≤ 258 → pkt.len.toNat ≤ pkt.data.length)
  | .sendAuth => 20 ≤ pkt.data.length
  | .sendCmd =>
    (GoodLength pkt.len → msgLen pkt.len ≤ pkt.data.length ∧ 25 ≤ pkt.data.length) ∧
      (TakesIv cfg.prims s.crypt pkt.len pkt.data → HasCommand cfg.prims s.crypt pkt.len pkt.data →
        0 < msgLen pkt.len ∧ padByte (decrypted cfg.prims s.crypt.key pkt.len pkt.data) ≠ 0)
  | _ => True

/-- SET_USERNAME stays inside exactly if the name ends, or 32 bytes are there. -/
private theorem handleSetUsernameAccesses_allIn (pkt : Packet) :
    AllIn (handleSetUsernameAccesses pkt) ↔ 0 ∈ pkt.data ∨ 32 ≤ pkt.data.length := by
  have hle := length_cString_le pkt.data
  rw [← length_cString_lt]
  simp only [handleSetUsernameAccesses, allIn_cons, allIn_nil, inBounds_bytes, and_true]
  omega

/-- SEND_A stays inside exactly if its length is positive and the bytes are there. -/
private theorem handleSendAAccesses_allIn (pkt : Packet) :
    AllIn (handleSendAAccesses pkt) ↔ 1 ≤ pkt.len.toNat ∧ pkt.len.toNat ≤ 2 ^ 31 ∧
      (pkt.len.toNat ≤ 258 → pkt.len.toNat ≤ pkt.data.length) := by
  obtain ⟨hnonneg, hlen⟩ := msgLen_pred pkt.len
  rw [handleSendAAccesses, maxParamLen]
  split
  · simp only [allIn_nil, true_iff]
    omega
  · simp only [allIn_cons, allIn_nil, inBounds_bytes, and_true]
    omega

/-- SEND_CMD stays inside exactly under its condition. -/
private theorem handleSendCmdAccesses_allIn (cfg : Config) (pkt : Packet) (s : Server) :
    AllIn (handleSendCmdAccesses cfg pkt s) ↔ Fits cfg pkt s .sendCmd := by
  rw [handleSendCmdAccesses, allIn_append, eadDecryptAccesses_allIn]
  refine and_congr_right fun hfits => ?_
  -- without a command only the message is read
  by_cases hpos : 0 < cmdLen cfg.prims s.crypt pkt.len pkt.data
  · obtain ⟨htakes, hcmd⟩ := cmdLen_pos.mp hpos
    obtain ⟨hle, hhead⟩ := hfits htakes.length
    rw [if_neg (by omega)]
    simp only [allIn_cons, allIn_nil, inBounds_bytes, and_true, htakes, hcmd, forall_const]
    by_cases hlen : 0 < msgLen pkt.len
    · have hend := cmdLen_of_pos htakes hcmd hlen
      omega
    · omega
  · rw [if_pos (by omega)]
    have hnot : ¬(TakesIv cfg.prims s.crypt pkt.len pkt.data ∧
        HasCommand cfg.prims s.crypt pkt.len pkt.data) := fun h => hpos (cmdLen_pos.mpr h)
    simp only [allIn_nil, true_iff]
    exact fun htakes hcmd => absurd ⟨htakes, hcmd⟩ hnot

/-- A handler stays inside exactly under its condition. -/
private theorem handleAccesses_allIn (cfg : Config) (pkt : Packet) (type : EadType) (s : Server) :
    AllIn (handleAccesses cfg pkt type s) ↔ Fits cfg pkt s type := by
  cases type with
  | setUsername => exact handleSetUsernameAccesses_allIn pkt
  | sendA => exact handleSendAAccesses_allIn pkt
  | sendAuth =>
    simp only [handleAccesses, handleSendAuthAccesses, Fits, allIn_cons, allIn_nil, inBounds_bytes,
      and_true]
    omega
  | sendCmd => exact handleSendCmdAccesses_allIn cfg pkt s
  | _ => simp [handleAccesses, Fits]

/-- A packet stays in bounds exactly if it fits the handler that it gets to. -/
theorem handlePacketAccesses_allIn_iff (w : Nat) (cfg : Config) (pkt : Packet) (s : Server) :
    AllIn (handlePacketAccesses w cfg pkt s) ↔
      ∀ type, handlerOf w cfg pkt s = some type → Fits cfg pkt s type := by
  rw [handlePacketAccesses]
  cases handlerOf w cfg pkt s with
  | none => simp
  | some type => simp [handleAccesses_allIn]

/-- A message without a byte, for a daemon that waits for `A`. -/
def emptyA : Packet := { toyPacket 6 [0] with len := 0 }

/-- `handle_send_a` copies -1 bytes of it. -/
theorem handlePacketAccesses_emptyA :
    handlerOf 64 toyConfig emptyA { initServer with state := .sendA } = some .sendA ∧
      .bytes 1 (-1) 1 ∈
        handlePacketAccesses 64 toyConfig emptyA { initServer with state := .sendA } ∧
      ¬AllIn (handlePacketAccesses 64 toyConfig emptyA { initServer with state := .sendA }) := by
  decide

/-- A command of 39 bytes as the client encrypts it: there is no padding. -/
def unpaddedCommand : List UInt8 :=
  (eadEncryptMessage toyPrims toyReceiver (List.replicate 3 0 ++ List.replicate 36 108) fun _ => 0).2

set_option maxRecDepth 4096 in
/-- Its NUL goes behind the 64 bytes that were decrypted. -/
theorem handleSendCmdAccesses_unpadded :
    .bytes 64 1 64 ∈ handleSendCmdAccesses toyConfig (toyPacket 10 unpaddedCommand)
      { initServer with state := .sendCmd, crypt := toyReceiver } := by
  decide

/-! ### Packets that are captured as a whole -/

/-- The checks that a packet passes on its way to a handler. -/
private theorem handlerOf_checks {w : Nat} (h : handlerOf w cfg pkt s = some type) :
    (¬pkt.wireLen.toNat < sizeofPacket ∧ ¬pkt.etherType ≠ 0x0800 ∧
      ¬pkt.etherDhost ≠ List.replicate 6 0xff ∧ ¬pkt.proto ≠ 17 ∧ ¬pkt.destport ≠ eadPort ∧
      ¬pkt.magic ≠ eadMagic ∧ ¬pkt.wireLen.toNat < (sizeofPacket + pkt.len.toNat) % 2 ^ w ∧
      ¬(pkt.nid ≠ 0xffff ∧ pkt.nid ≠ cfg.nid)) ∧
    requestOf pkt.type = some type ∧
      ¬(type.code ≥ EadType.getPrime.code ∧ s.state ≠ type) ∧
      ¬(type ≠ .ping ∧ (((pkt.sid &&& 0xf000) >>> 12).toNat : Int) ≠ cfg.instanceId) ∧
      ¬msgLen pkt.wireLen < (sizeofPacket + minLen type : Nat) := by
  simp only [handlerOf, Option.ite_none_left_eq_some] at h
  obtain ⟨h1, h2, h3, h4, h5, h6, h7, h8, h⟩ := h
  refine ⟨⟨h1, h2, h3, h4, h5, h6, h7, h8⟩, ?_⟩
  -- a type that is no request has no handler
  cases hreq : requestOf pkt.type with
  | none =>
    rw [hreq] at h
    cases h
  | some request =>
    rw [hreq] at h
    simp only [Option.ite_none_left_eq_some, Option.some.injEq] at h
    obtain ⟨hstate, hsid, hmin, rfl⟩ := h
    exact ⟨rfl, hstate, hsid, hmin⟩

/-- The handler runs, and its response is sent. -/
theorem handlePacket_of_handlerOf (o : Oracle)
    (h : handlerOf 64 cfg pkt s = some type) :
    handlePacket cfg o pkt s =
      (handle cfg o pkt type (s.emit (.packet pkt.type)) >>= fun r =>
        setState cfg o r.nstate (r.send (type.code + 1) pkt.sid)) := by
  obtain ⟨⟨h1, h2, h3, h4, h5, h6, h7, h8⟩, htype, h9, h10, h11⟩ := handlerOf_checks h
  have hlen := pkt.len.toNat_lt
  have hsum : (sizeofPacket + pkt.len.toNat) % 2 ^ 64 = sizeofPacket + pkt.len.toNat :=
    Nat.mod_eq_of_lt (by rw [sizeofPacket]; omega)
  rw [hsum] at h7
  -- the checks are those that `handlerOf` has made
  rw [handlePacket, if_neg h1, if_neg h2, if_neg h3, if_neg h4, if_neg h5, if_neg h6, if_neg h7,
    if_neg h8, parseMessage]
  simp only [htype]
  have hstate : (s.emit (.packet pkt.type)).state = s.state := rfl
  rw [hstate, if_neg h9, if_neg h10, if_neg h11]

/-- For a packet that is captured as a whole, where a `size_t` holds its length, only an empty `A`
    and a command without padding lead out of bounds. -/
theorem fits_of_captured {w : Nat} (hw : 33 ≤ w)
    (hcaptured : pkt.wireLen.toNat ≤ sizeofPacket + pkt.data.length)
    (h : handlerOf w cfg pkt s = some type) :
    Fits cfg pkt s type ↔ (type = .sendA → pkt.len ≠ 0) ∧
      (type = .sendCmd → TakesIv cfg.prims s.crypt pkt.len pkt.data →
        HasCommand cfg.prims s.crypt pkt.len pkt.data →
          padByte (decrypted cfg.prims s.crypt.key pkt.len pkt.data) ≠ 0) := by
  obtain ⟨⟨-, -, -, -, -, -, hlen, -⟩, -, -, -, hmin⟩ := handlerOf_checks h
  rw [not_lt] at hlen hmin
  have hlt := pkt.len.toNat_lt
  have hpow : 2 ^ 33 ≤ 2 ^ w := Nat.pow_le_pow_right (by decide) hw
  rw [Nat.mod_eq_of_lt (by rw [sizeofPacket]; omega)] at hlen
  -- as an `int` the length of the packet would be negative from `2 ^ 31` on
  have hint := @msgLen_pos pkt.wireLen (by rw [sizeofPacket] at hmin; omega)
  have hsmall : pkt.wireLen.toNat < 2 ^ 31 := by
    rw [msgLen] at hint
    have hwire := pkt.wireLen.toNat_lt
    split at hint <;> omega
  rw [hint] at hmin
  have hzero : pkt.len ≠ 0 ↔ 1 ≤ pkt.len.toNat := by
    rw [ne_eq, ← UInt32.toNat_inj]
    exact Nat.pos_iff_ne_zero.symm
  -- only these four handlers read data, and two of them are bounded by the least length
  cases type with
  | sendA =>
    simp only [Fits, forall_const, reduceCtorEq, false_imp_iff, and_true, hzero]
    omega
  | sendCmd =>
    simp only [minLen, sizeofEncrypted] at hmin
    have hnat : msgLen pkt.len = pkt.len.toNat := by
      rw [msgLen, if_pos (by omega)]
    simp only [Fits, forall_const, reduceCtorEq, false_imp_iff, true_and]
    constructor
    · exact fun hfits htakes hcmd => (hfits.2 htakes hcmd).2
    · intro hpad
      refine ⟨fun _ => by omega, fun htakes hcmd => ⟨?_, hpad htakes hcmd⟩⟩
      have hne := htakes.length.1
      omega
  | setUsername =>
    simp only [minLen] at hmin
    simp only [Fits, reduceCtorEq, false_imp_iff, and_self, iff_true]
    right
    omega
  | sendAuth =>
    simp only [minLen] at hmin
    simp only [Fits, reduceCtorEq, false_imp_iff, and_self, iff_true]
    omega
  | _ => simp [Fits]

end HandsomeMod.Native.Ead
