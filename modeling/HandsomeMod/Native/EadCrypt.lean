import HandsomeMod.ForStd.Bits

/-!
# Encrypted messages of the emergency access daemon

Embeds `package/network/services/ead/src/ead-crypt.c`. AES and the compression loop of SHA-1 are
parameters. A message is the bytes behind `struct ead_msg`: 20 bytes of hash, 4 bytes of
initialization vector, one byte that holds the length of the padding, the data, the padding.
-/

namespace HandsomeMod.Native.Ead

open ForStd

/-- The machine and the primitives. -/
structure Prims where
  endian : Endian
  /-- `rijndaelEncrypt` of a 16-byte block under a 32-byte key -/
  rijndaelEncrypt : List UInt8 → List UInt8 → List UInt8
  rijndaelDecrypt : List UInt8 → List UInt8 → List UInt8
  /-- `sha_init`, then `sha_transform` of every 64 bytes; the five words, most significant byte
      first -/
  sha : List UInt8 → List UInt8
  length_rijndaelEncrypt : ∀ k b, b.length = 16 → (rijndaelEncrypt k b).length = 16
  length_rijndaelDecrypt : ∀ k b, b.length = 16 → (rijndaelDecrypt k b).length = 16
  decrypt_encrypt : ∀ k b, b.length = 16 → rijndaelDecrypt k (rijndaelEncrypt k b) = b
  length_sha : ∀ m, (sha m).length = 20

/-- The static variables of `ead-crypt.c`; `key` stands for both AES contexts. -/
structure Crypt where
  key : List UInt8
  rxIv : UInt32
  txIv : UInt32
  ivofsVec : UInt32
  ivofsIdx : Nat

/-- A byte list as memory. -/
def memOf (l : List UInt8) : Mem := fun i => l.getD i 0

/-- `ntohl` of the word at an address. -/
def ntohlAt (m : Mem) (start : Nat) : UInt32 := UInt32.ofNat (loadBE 4 fun i => m (start + i))

/-- The four bytes of `htonl(v)`. -/
def htonlBytes (v : UInt32) : List UInt8 := (List.range 4).map (storeBE 4 v.toNat)

def eadMaxIvIncr : UInt32 := 128

def eadEncPad : Nat := 64

/-- `sizeof(struct ead_msg_encrypted)` -/
def sizeofEncrypted : Nat := 25

def eadSetKey (p : Prims) (skey : List UInt8) (c : Crypt) : Crypt :=
  { c with
    key := skey.take 32
    rxIv := ntohlAt (memOf skey) 32 &&& 0x00ffffff
    txIv := ntohlAt (memOf skey) 32 &&& 0x00ffffff
    ivofsVec := UInt32.ofNat (p.endian.load 4 fun i => memOf skey (36 + i)) }

/-- `none` is false. -/
def eadCheckRxIv (iv : UInt32) (c : Crypt) : Option Crypt :=
  if iv ≤ c.rxIv then none
  else if iv > c.rxIv + eadMaxIvIncr then none
  else some { c with rxIv := iv }

def eadGetTxIv (c : Crypt) : Crypt × UInt32 :=
  let ofs := 1 + ((c.ivofsVec >>> UInt32.ofNat (2 * c.ivofsIdx)) &&& 0x3)
  ({ c with ivofsIdx := (c.ivofsIdx + 1) % 16, txIv := c.txIv + ofs }, c.txIv + ofs)

/-- `n` blocks of 16 bytes, one after the other; what follows them stays. -/
def mapBlocks (f : List UInt8 → List UInt8) : Nat → List UInt8 → List UInt8
  | 0, data => data
  | n + 1, data => f (data.take 16) ++ mapBlocks f n (data.drop 16)

/-- `memset(enc->hash, 0, sizeof(enc->hash))` -/
def clearHash (enc : List UInt8) : List UInt8 := List.replicate 20 0 ++ enc.drop 20

/-- The hash of a message with its hash field cleared. -/
def eadHashMessage (p : Prims) (enc : List UInt8) (len : Nat) : List UInt8 :=
  p.sha ((clearHash enc).take len)

/-- The message before its hash is filled in. `fill` is what the buffer holds behind the data. -/
def plainMessage (iv : UInt32) (body : List UInt8) (fill : Mem) : List UInt8 :=
  let len := body.length + sizeofEncrypted
  let pad := (eadEncPad - len % eadEncPad) % eadEncPad
  List.replicate 20 0 ++ htonlBytes iv ++ [UInt8.ofNat pad] ++ body ++ (List.range pad).map fill

/-- The new variables and the encrypted message, whose length goes to `msg->len`. -/
def eadEncryptMessage (p : Prims) (c : Crypt) (body : List UInt8) (fill : Mem) :
    Crypt × List UInt8 :=
  let (c, iv) := eadGetTxIv c
  let enc := plainMessage iv body fill
  let enc := eadHashMessage p enc enc.length ++ enc.drop 20
  (c, mapBlocks (p.rijndaelEncrypt c.key) (enc.length / 16) enc)

/-- A length as an `int`. -/
def msgLen (len : UInt32) : Int :=
  if len.toNat < 2147483648 then len.toNat else len.toNat - 4294967296

/-- The new variables, the result and the message buffer afterwards. -/
def eadDecryptMessage (p : Prims) (c : Crypt) (netlen : UInt32) (data : List UInt8) :
    Crypt × Int × List UInt8 :=
  let len := msgLen netlen
  if len = 0 ∨ len.tmod eadEncPad > 0 then (c, 0, data)
  else
    -- a negative `len` decrypts and hashes nothing
    let enc := mapBlocks (p.rijndaelDecrypt c.key) ((len.toNat + 15) / 16) data
    let pad := (memOf enc 24).toNat
    if pad ≥ eadEncPad then (c, 0, enc)
    else
      match eadCheckRxIv (ntohlAt (memOf enc) 20) c with
      -- the IV is refused
      | none => (c, 0, enc)
      | some c =>
        -- the hash is taken with its own field cleared
        if enc.take 20 = eadHashMessage p enc len.toNat then
          (c, len - (pad + sizeofEncrypted : Nat), clearHash enc)
        else (c, 0, clearHash enc)

/-- What `ead_decrypt_message` returns: the length that is left, as an `int`. -/
def eadDecryptReturn (p : Prims) (c : Crypt) (netlen : UInt32) (data : List UInt8) : Int :=
  Int.bmod (eadDecryptMessage p c netlen data).2.1 (2 ^ 32)

end HandsomeMod.Native.Ead
