import HandsomeMod.ForStd.Run
import HandsomeMod.Spec.EadCryptCorrect
import HandsomeMod.Spec.EadAuth

/-!
# Delivery of encrypted messages

Two parties set the same key, one of them encrypts messages and the other one decrypts those that
arrive. The initialization vectors grow by one to four with every message, so that up to 31 messages
in a row can be lost and the next one is still in the window of the receiver. It is accepted, and
decrypts to the data that was encrypted.
-/

namespace HandsomeMod.Native.Ead

open ForStd

/-! ### One message there and back -/

/-- The bytes of the first of two lists. -/
private theorem memOf_append_left {l l' : List UInt8} {i : Nat} (h : i < l.length) :
    memOf (l ++ l') i = memOf l i := by
  simp only [memOf, List.getD_eq_getElem?_getD, List.getElem?_append_left h]

/-- The bytes of the second of two lists. -/
private theorem memOf_append_right {l l' : List UInt8} {i : Nat} :
    memOf (l ++ l') (l.length + i) = memOf l' i := by
  simp only [memOf, List.getD_eq_getElem?_getD]
  rw [List.getElem?_append_right (Nat.le_add_right ..), Nat.add_sub_cancel_left]

/-- The bytes of the first part of a list. -/
private theorem memOf_take {l : List UInt8} {n i : Nat} (h : i < n) : memOf (l.take n) i = memOf l i
    := by
  simp only [memOf, List.getD_eq_getElem?_getD, List.getElem?_take_of_lt h]

private theorem length_htonlBytes (v : UInt32) : (htonlBytes v).length = 4 := by
  rw [htonlBytes, List.length_map, List.length_range]

/-- The word behind `hash` is the one that was stored there. -/
private theorem ntohlAt_htonlBytes {hash rest : List UInt8} (v : UInt32) :
    ntohlAt (memOf (hash ++ (htonlBytes v ++ rest))) hash.length = v := by
  have hbytes : ∀ i < 4, memOf (hash ++ (htonlBytes v ++ rest)) (hash.length + i) =
      storeBE 4 v.toNat i := by
    intro i hi
    rw [memOf_append_right, memOf_append_left (by rw [length_htonlBytes]; exact hi)]
    simp [memOf, htonlBytes, List.getD_eq_getElem?_getD, List.getElem?_range hi]
  rw [ntohlAt, loadBE_congr hbytes, loadBE_storeBE v.toNat_lt, UInt32.ofNat_toNat]

/-- The padding of a body. -/
def padOf (body : List UInt8) : Nat :=
  (eadEncPad - (body.length + sizeofEncrypted) % eadEncPad) % eadEncPad

/-- The padding is less than a block. -/
private theorem padOf_lt (body : List UInt8) : padOf body < 64 := Nat.mod_lt _ (by decide)

/-- The parts of a message behind its hash. -/
private theorem drop_plainMessage (iv : UInt32) (body : List UInt8) (fill : Mem) :
    (plainMessage iv body fill).drop 20 =
      htonlBytes iv ++ (UInt8.ofNat (padOf body) :: (body ++ (List.range (padOf body)).map fill)) := by
  simp only [plainMessage, List.append_assoc]
  rw [List.drop_left' (List.length_replicate ..)]
  rfl

/-- The length of a message with its header and padding. -/
private theorem length_plainMessage_eq (iv : UInt32) (body : List UInt8) (fill : Mem) :
    (plainMessage iv body fill).length = body.length + sizeofEncrypted + padOf body := by
  simp only [plainMessage, padOf, sizeofEncrypted, List.length_append, List.length_replicate,
    length_htonlBytes, List.length_map, List.length_range, List.length_cons, List.length_nil]
  omega

/-- A length below `2 ^ 31` is the same as an `int`. -/
private theorem msgLen_ofNat {n : Nat} (h : n < 2 ^ 31) : msgLen (UInt32.ofNat n) = n := by
  have hnat : (UInt32.ofNat n).toNat = n := UInt32.toNat_ofNat_of_lt' (Nat.lt_trans h (by decide))
  rw [msgLen, hnat, if_pos (by omega)]

/-- The window while the counters do not wrap around. -/
private theorem eadCheckRxIv_window {iv : UInt32} {d : Crypt} (hlt : d.rxIv.toNat < iv.toNat)
    (hle : iv.toNat ≤ d.rxIv.toNat + 128) (hmax : d.rxIv.toNat + 128 < 2 ^ 32) :
    eadCheckRxIv iv d = some { d with rxIv := iv } := by
  have hsum : (d.rxIv + eadMaxIvIncr).toNat = d.rxIv.toNat + 128 := by
    rw [UInt32.toNat_add, show eadMaxIvIncr.toNat = 128 from rfl, Nat.mod_eq_of_lt hmax]
  rw [eadCheckRxIv, if_neg (by rw [UInt32.le_iff_toNat_le]; omega),
    if_neg (by rw [gt_iff_lt, UInt32.lt_iff_toNat_lt, hsum]; omega)]

/-- An encrypted message decrypts to its data, if its IV is in the window. -/
private theorem eadDecryptMessage_encrypt (p : Prims) {c d : Crypt} (hkey : d.key = c.key)
    {body : List UInt8} (hfits : body.length + 88 < 2 ^ 31) (fill : Mem) (extra : List UInt8)
    (hcheck : eadCheckRxIv (eadGetTxIv c).2 d = some { d with rxIv := (eadGetTxIv c).2 }) :
    let payload := (eadEncryptMessage p c body fill).2
    let r := eadDecryptMessage p d (UInt32.ofNat payload.length) (payload ++ extra)
    r.1 = { d with rxIv := (eadGetTxIv c).2 } ∧ r.2.1 = body.length ∧
      (r.2.2.drop sizeofEncrypted).take body.length = body := by
  obtain ⟨hlen, hplain⟩ := plainOf_encrypt p c body fill
  have hsum := length_plainMessage_eq (eadGetTxIv c).2 body fill
  have hpad := padOf_lt body
  obtain ⟨hpos, hmod⟩ := length_plainMessage (eadGetTxIv c).2 body fill
  have hclear := clearHash_plainMessage (eadGetTxIv c).2 body fill
  have hdrop := drop_plainMessage (eadGetTxIv c).2 body fill
  simp only
  generalize hm : plainMessage (eadGetTxIv c).2 body fill = m at hlen hplain hsum hpos hmod hclear hdrop
  generalize (eadEncryptMessage p c body fill).2 = payload at hlen hplain ⊢
  have hsize : sizeofEncrypted = 25 := rfl
  have hnet : msgLen (UInt32.ofNat payload.length) = payload.length := msgLen_ofNat (by omega)
  have hlength : ¬((payload.length : Int) = 0 ∨ (payload.length : Int).tmod eadEncPad > 0) := by
    rw [← Int.ofNat_tmod, eadEncPad]
    omega
  -- what is decrypted is the message with its hash, and what was behind the payload
  have henc : (mapBlocks (p.rijndaelDecrypt d.key) ((payload.length + 15) / 16)
      (payload ++ extra)).take payload.length = p.sha m ++ m.drop 20 := by
    rw [← plainOf_take p d.key (by omega) (by rw [List.length_append]; omega),
      List.take_left, hkey, hplain]
  rw [eadDecryptMessage, hnet, if_neg hlength, Int.toNat_natCast]
  generalize mapBlocks (p.rijndaelDecrypt d.key) ((payload.length + 15) / 16)
    (payload ++ extra) = enc at henc ⊢
  have hbytes : p.sha m ++ m.drop 20 = p.sha m ++ (htonlBytes (eadGetTxIv c).2 ++
      (UInt8.ofNat (padOf body) :: (body ++ (List.range (padOf body)).map fill))) := by
    rw [hdrop]
  -- behind the hash stand the IV, the padding length and the body
  have hhead : memOf enc 24 = UInt8.ofNat (padOf body) := by
    rw [← memOf_take (n := payload.length) (by omega), henc, hbytes,
      show 24 = (p.sha m).length + ((htonlBytes (eadGetTxIv c).2).length + 0) by
        rw [p.length_sha, length_htonlBytes], memOf_append_right, memOf_append_right]
    rfl
  have hpadNat : (memOf enc 24).toNat = padOf body := by
    rw [hhead]
    exact UInt8.toNat_ofNat_of_lt' (Nat.lt_trans hpad (by decide))
  have hiv : ntohlAt (memOf enc) 20 = (eadGetTxIv c).2 := by
    have h : ntohlAt (memOf (p.sha m ++ (htonlBytes (eadGetTxIv c).2 ++
        (UInt8.ofNat (padOf body) :: (body ++ (List.range (padOf body)).map fill)))))
        (p.sha m).length = (eadGetTxIv c).2 := ntohlAt_htonlBytes (eadGetTxIv c).2
    rw [p.length_sha, ← hbytes, ← henc, ntohlAt_take (by omega)] at h
    exact h
  -- the hash in front is that of the message with the hash cleared
  have hhash : enc.take 20 = p.sha m := by
    have h := congrArg (List.take 20) henc
    rw [List.take_take, Nat.min_eq_left (by omega), List.take_left' (p.length_sha m)] at h
    exact h
  have hcleared : (clearHash enc).take payload.length = m := by
    rw [clearHash_take (by omega), henc, clearHash_append (p.length_sha m), hclear]
  simp only [hpadNat]
  rw [if_neg (show ¬(padOf body ≥ eadEncPad) from Nat.not_le.mpr hpad), hiv, hcheck]
  simp only
  rw [if_pos (by rw [hhash, eadHashMessage, hcleared])]
  refine ⟨rfl, ?_, ?_⟩
  · show (payload.length : Int) - (padOf body + sizeofEncrypted : Nat) = body.length
    omega
  · show ((clearHash enc).drop sizeofEncrypted).take body.length = body
    have hbody : (m.drop 25).take body.length = body := by
      have hhtonl : (htonlBytes (eadGetTxIv c).2 ++ [UInt8.ofNat (padOf body)]).length = 5 := by
        rw [List.length_append, length_htonlBytes]
        rfl
      rw [show 25 = 20 + 5 by rfl, ← List.drop_drop, hdrop, List.append_cons,
        List.drop_left' hhtonl, List.take_left]
    rw [← hcleared, List.drop_take, List.take_take, Nat.min_eq_left (by omega)] at hbody
    exact hbody

/-! ### The window -/

/-- The next IV is one to four above the last. -/
private theorem eadGetTxIv_toNat {c : Crypt} (h : c.txIv.toNat + 4 < 2 ^ 32) :
    (eadGetTxIv c).1.txIv = (eadGetTxIv c).2 ∧ c.txIv.toNat < (eadGetTxIv c).2.toNat ∧
      (eadGetTxIv c).2.toNat ≤ c.txIv.toNat + 4 := by
  have hofs (v : UInt32) : (1 + (v &&& 0x3)).toNat = 1 + v.toNat % 4 := by
    rw [UInt32.toNat_add, UInt32.toNat_and, show (0x3 : UInt32).toNat = 2 ^ 2 - 1 from rfl,
      Nat.and_two_pow_sub_one_eq_mod, show (1 : UInt32).toNat = 1 from rfl]
    omega
  refine ⟨rfl, ?_⟩
  show c.txIv.toNat < (c.txIv + (1 + ((c.ivofsVec >>> UInt32.ofNat (2 * c.ivofsIdx)) &&& 0x3))).toNat ∧
    (c.txIv + (1 + ((c.ivofsVec >>> UInt32.ofNat (2 * c.ivofsIdx)) &&& 0x3))).toNat ≤ c.txIv.toNat + 4
  rw [UInt32.toNat_add, hofs]
  omega

/-! ### The link between two parties -/

/-- A message on its way. -/
structure Message where
  body : List UInt8
  /-- what the sender's buffer holds behind the data -/
  fill : Mem
  /-- what the receiver's buffer holds behind the payload; `none` if the message is lost -/
  arrives : Option (List UInt8)
  /-- the padded length fits the `int` that holds it -/
  fits : body.length + 88 < 2 ^ 31

/-- The variables of both parties. -/
structure Link where
  sender : Crypt
  receiver : Crypt

variable {p : Prims} {link : Link} {m : Message}

/-- What is sent. -/
def Link.payload (p : Prims) (link : Link) (m : Message) : List UInt8 :=
  (eadEncryptMessage p link.sender m.body m.fill).2

/-- What `ead_decrypt_message` makes of it. -/
def Link.receive (p : Prims) (link : Link) (m : Message) (extra : List UInt8) :
    Crypt × Int × List UInt8 :=
  eadDecryptMessage p link.receiver (UInt32.ofNat (link.payload p m).length)
    (link.payload p m ++ extra)

/-- A message is encrypted, and decrypted if it arrives. -/
def Link.step (p : Prims) (link : Link) (m : Message) : Link where
  sender := (eadEncryptMessage p link.sender m.body m.fill).1
  receiver :=
    match m.arrives with
    | some extra => (link.receive p m extra).1
    | none => link.receiver

/-- If the message arrives, the receiver accepts its IV and gets its data. -/
def Link.Delivers (p : Prims) (link : Link) (m : Message) : Prop :=
  ∀ extra, m.arrives = some extra →
    (link.receive p m extra).1.rxIv = (eadGetTxIv link.sender).2 ∧
      (link.receive p m extra).2.1 = m.body.length ∧
      ((link.receive p m extra).2.2.drop sizeofEncrypted).take m.body.length = m.body

/-- At most `k` messages in a row are lost. -/
def LostInARow (k : Nat) (ms : List Message) : Prop :=
  ∀ lost, lost <:+: ms → (∀ m ∈ lost, m.arrives = none) → lost.length ≤ k

/-- The parties after `sent` messages, the last `lost` of which did not arrive. -/
structure Linked (sent lost : Nat) (link : Link) : Prop where
  key : link.receiver.key = link.sender.key
  behind : link.receiver.rxIv.toNat ≤ link.sender.txIv.toNat
  ahead : link.sender.txIv.toNat ≤ link.receiver.rxIv.toNat + 4 * lost
  small : link.sender.txIv.toNat ≤ 2 ^ 24 + 4 * sent

/-- `ead_set_key` with one key on both sides. -/
theorem linked_setKey (p p' : Prims) (skey : List UInt8) (c d : Crypt) :
    Linked 0 0 { sender := eadSetKey p skey c, receiver := eadSetKey p' skey d } := by
  refine ⟨rfl, Nat.le_refl _, Nat.le_refl _, ?_⟩
  show (ntohlAt (memOf skey) 32 &&& 0x00ffffff).toNat ≤ 2 ^ 24 + 4 * 0
  rw [UInt32.toNat_and]
  exact Nat.le_of_lt (Nat.lt_of_le_of_lt Nat.and_le_right (by decide))

/-- The next IV of the sender is one to four above the last. -/
theorem Linked.sender_iv {sent lost : Nat} (h : Linked sent lost link) (hsent : sent < 2 ^ 28) :
    (eadGetTxIv link.sender).1.txIv = (eadGetTxIv link.sender).2 ∧
      link.sender.txIv.toNat < (eadGetTxIv link.sender).2.toNat ∧
      (eadGetTxIv link.sender).2.toNat ≤ link.sender.txIv.toNat + 4 :=
  eadGetTxIv_toNat (by have := h.small; omega)

/-- With fewer than 32 losses since, the next message is in the window. -/
theorem Linked.check {sent lost : Nat} (h : Linked sent lost link) (hsent : sent < 2 ^ 28)
    (hlost : lost ≤ 31) :
    eadCheckRxIv (eadGetTxIv link.sender).2 link.receiver =
      some { link.receiver with rxIv := (eadGetTxIv link.sender).2 } := by
  obtain ⟨-, hlt, hle⟩ := h.sender_iv hsent
  have hbehind := h.behind
  have hahead := h.ahead
  have hsmall := h.small
  exact eadCheckRxIv_window (by omega) (by omega) (by omega)

/-- A message that arrives is delivered, and both ends are linked again. -/
theorem Linked.receive {sent lost : Nat} (h : Linked sent lost link) (hsent : sent < 2 ^ 28)
    (hlost : lost ≤ 31) (m : Message) (extra : List UInt8) :
    (link.receive p m extra).1 =
        { link.receiver with rxIv := (eadGetTxIv link.sender).2 } ∧
      (link.receive p m extra).2.1 = m.body.length ∧
      ((link.receive p m extra).2.2.drop sizeofEncrypted).take m.body.length = m.body :=
  eadDecryptMessage_encrypt p h.key m.fits m.fill extra (h.check hsent hlost)

/-- A message that arrives is delivered. -/
theorem Linked.delivers {sent lost : Nat} (h : Linked sent lost link) (hsent : sent < 2 ^ 28)
    (hlost : lost ≤ 31) (m : Message) : link.Delivers p m := by
  intro extra _
  obtain ⟨hcrypt, hlen, hbody⟩ := h.receive (p := p) hsent hlost m extra
  exact ⟨by rw [hcrypt], hlen, hbody⟩

/-- After a message that is lost there is one more loss, after one that arrives there is none. -/
theorem Linked.step {sent lost : Nat} (h : Linked sent lost link) (hsent : sent < 2 ^ 28)
    (hlost : lost ≤ 31) (m : Message) :
    Linked (sent + 1) (if m.arrives = none then lost + 1 else 0) (link.step p m) := by
  obtain ⟨htx, hlt, hle⟩ := h.sender_iv hsent
  have hbehind := h.behind
  have hahead := h.ahead
  have hsmall := h.small
  have hsender : (link.step p m).sender.txIv.toNat = (eadGetTxIv link.sender).2.toNat := by
    rw [← htx]
    rfl
  -- a lost message moves the sender's IV on, one that arrives the receiver's too
  cases harrives : m.arrives with
  | none =>
    have hreceiver : (link.step p m).receiver = link.receiver := by
      rw [Link.step]
      simp only [harrives]
    rw [if_pos rfl]
    refine ⟨?_, ?_, ?_, ?_⟩
    · rw [hreceiver]
      exact h.key
    all_goals simp only [hsender, hreceiver]; omega
  | some extra =>
    have hreceiver : (link.step p m).receiver =
        { link.receiver with rxIv := (eadGetTxIv link.sender).2 } := by
      rw [Link.step]
      simp only [harrives]
      exact (h.receive hsent hlost m extra).1
    rw [if_neg (by simp)]
    refine ⟨?_, ?_, ?_, ?_⟩
    · rw [hreceiver]
      exact h.key
    all_goals simp only [hsender, hreceiver]; omega

/-- From linked parties on, with the messages before that were lost. -/
theorem Linked.run {before ms : List Message} {sent : Nat}
    (h : Linked sent before.length link) (hlost : ∀ m ∈ before, m.arrives = none)
    (hrow : LostInARow 31 (before ++ ms)) (hsent : sent + ms.length ≤ 2 ^ 28) :
    Along (Link.step p) (fun link m _ => link.Delivers p m) link ms := by
  -- `before` are the messages lost since the last one that arrived
  induction ms generalizing before sent link with
  | nil => trivial
  | cons m ms ih =>
    have hbefore : before.length ≤ 31 := hrow before (List.infix_append [] before _) hlost
    rw [List.length_cons] at hsent
    have hnext := h.step (p := p) (by omega) hbefore m
    refine ⟨h.delivers (by omega) hbefore m, ?_⟩
    cases harrives : m.arrives with
    | none =>
      rw [if_pos harrives] at hnext
      have hlinked : Linked (sent + 1) (before ++ [m]).length (link.step p m) := by
        rw [List.length_append]
        exact hnext
      have hlost' : ∀ m' ∈ before ++ [m], m'.arrives = none := by
        intro m' hm'
        obtain hm' | hm' := List.mem_append.mp hm'
        · exact hlost m' hm'
        · rw [List.mem_singleton.mp hm', harrives]
      exact ih hlinked hlost' (by rwa [List.append_assoc]) (by omega)
    | some extra =>
      rw [if_neg (by rw [harrives]; simp)] at hnext
      have hlinked : Linked (sent + 1) ([] : List Message).length (link.step p m) := hnext
      refine ih hlinked (by simp) ?_ (by omega)
      intro lost hin
      exact hrow lost (hin.trans ⟨before ++ [m], [], by simp⟩)

/-- With one key on both sides, fewer than `2 ^ 28` messages and at most 31 losses in a row, every
    message that arrives is accepted and decrypts to what was encrypted. The machines of the two
    parties may differ in their byte order. -/
theorem run_delivers (p : Prims) (e : Endian) (skey : List UInt8) (c d : Crypt) (ms : List Message)
    (hcount : ms.length < 2 ^ 28) (hrow : LostInARow 31 ms) :
    Along (Link.step p) (fun link m _ => link.Delivers p m)
      { sender := eadSetKey p skey c, receiver := eadSetKey { p with endian := e } skey d } ms := by
  have hlinked : Linked 0 ([] : List Message).length
      { sender := eadSetKey p skey c, receiver := eadSetKey { p with endian := e } skey d } :=
    linked_setKey p { p with endian := e } skey c d
  exact hlinked.run (by simp) hrow (by omega)

/-- The command `ls`, lost or not. -/
def sampleMessage (arrives : Option (List UInt8)) : Message where
  body := [0, 0, 10, 108, 115, 0]
  fill := fun _ => 0
  arrives := arrives
  fits := by decide

/-- The first message is lost, and the second one arrives with a byte behind it. -/
theorem run_delivers_sample :
    Along (Link.step toyPrims) (fun link m _ => link.Delivers toyPrims m)
      { sender := eadSetKey toyPrims (List.replicate 40 1) initServer.crypt
        receiver := eadSetKey toyPrims (List.replicate 40 1) initServer.crypt }
      [sampleMessage none, sampleMessage (some [1])] :=
  run_delivers toyPrims .little (List.replicate 40 1) initServer.crypt initServer.crypt _ (by decide)
    fun _ hin _ => Nat.le_trans hin.length_le (by decide)

end HandsomeMod.Native.Ead
