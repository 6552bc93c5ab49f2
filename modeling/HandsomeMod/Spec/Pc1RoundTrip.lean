import HandsomeMod.Native.Pc1crypt

/-!
# Decrypting undoes encrypting

Both directions take the next word of the key stream before they look at the byte, and mix the key
with the plaintext byte. So the two contexts are equal after every byte.
-/

namespace HandsomeMod.Native.Pc1

open ForStd

/-- Contexts with the same key and registers. -/
structure SameKeys (pc1 pc1' : Ctx) : Prop where
  cle : ∀ j ≤ 15, pc1.cle j = pc1'.cle j
  x1a2 : pc1.x1a2 = pc1'.x1a2
  si : pc1.si = pc1'.si
  x1a0 : ∀ j ≤ 7, pc1.x1a0 j = pc1'.x1a0 j

/-- Equal states have the same keys. -/
theorem SameKeys.of_eq {pc1 pc1' : Ctx} (h : pc1 = pc1') : SameKeys pc1 pc1' := by
  subst h
  exact ⟨fun _ _ => rfl, rfl, rfl, fun _ _ => rfl⟩

/-- The two halves of the key stream word are bytes. -/
private theorem next_lt (pc1 : Ctx) : (pc1.next.cfc ^^^ pc1.next.cfd).toNat < 2 ^ 8 := by
  have hcfc : pc1.next.cfc.toNat < 2 ^ 8 := by
    have hlt := (assemble pc1).inter.toNat_lt
    show ((assemble pc1).inter >>> 8).toNat < 2 ^ 8
    rw [UInt16.toNat_shiftRight, Nat.shiftRight_eq_div_pow]
    exact Nat.div_lt_of_lt_mul hlt
  have hcfd : pc1.next.cfd.toNat < 2 ^ 8 := by
    show ((assemble pc1).inter &&& 255).toNat < 2 ^ 8
    rw [UInt16.toNat_and]
    exact Nat.and_lt_two_pow _ (by decide)
  rw [UInt16.toNat_xor]
  exact Nat.xor_lt_two_pow hcfc hcfd

/-- A byte and a key stream byte survive the way through `unsigned char`. -/
private theorem xor_toUInt8 (c : UInt8) {k : UInt16} (hk : k.toNat < 2 ^ 8) :
    (c.toUInt16 ^^^ k).toUInt8.toUInt16 ^^^ k = c.toUInt16 := by
  have hlt : (c.toUInt16 ^^^ k).toNat < 2 ^ 8 := by
    rw [UInt16.toNat_xor, UInt8.toNat_toUInt16]
    exact Nat.xor_lt_two_pow c.toNat_lt hk
  have hback : (c.toUInt16 ^^^ k).toUInt8.toUInt16 = c.toUInt16 ^^^ k := by
    apply UInt16.toNat_inj.mp
    rw [UInt8.toNat_toUInt16, UInt16.toNat_toUInt8, Nat.mod_eq_of_lt hlt]
  rw [hback, UInt16.xor_assoc, UInt16.xor_self, UInt16.xor_zero]

/-- One byte: the plaintext comes back, and both contexts go on alike. -/
theorem decrypt_encrypt (pc1 : Ctx) (c : UInt8) :
    (decrypt pc1 (encrypt pc1 c.toUInt16).2.toUInt16).2 = c ∧
      (encrypt pc1 c.toUInt16).1 = (decrypt pc1 (encrypt pc1 c.toUInt16).2.toUInt16).1 := by
  have hplain := xor_toUInt8 c (next_lt pc1)
  constructor
  · show (_ ^^^ _ : UInt16).toUInt8 = c
    rw [encrypt, hplain, UInt8.toUInt8_toUInt16]
  · show pc1.next.mix c.toUInt16 = pc1.next.mix (_ ^^^ _)
    rw [encrypt, hplain]

/-- However the plaintext and the ciphertext are cut into buffers, decrypting with a fresh context
    what was encrypted with a fresh context gives the plaintext back, and after each byte the two
    contexts have the same key and registers. -/
theorem decryptBufs_encryptBufs (plain cipher : List (List UInt8))
    (hcipher : cipher.flatten = (encryptBufs init plain).2.flatten) :
    (decryptBufs init cipher).2.flatten = plain.flatten ∧
      List.Forall₂ SameKeys
        (Mealy.statesChunks (fun pc1 c => encrypt pc1 (UInt8.toUInt16 c)) init plain)
        (Mealy.statesChunks (fun pc1 c => decrypt pc1 (UInt8.toUInt16 c)) init cipher) := by
  have hrun : (Mealy.run (fun pc1 c => encrypt pc1 (UInt8.toUInt16 c)) init plain.flatten).2 =
      cipher.flatten := by
    rw [hcipher, Mealy.run_flatten]
    rfl
  -- the relation between the contexts is equality
  obtain ⟨hplain, hstates⟩ := Mealy.run_inverse (r := Eq)
    (f := fun pc1 c => encrypt pc1 (UInt8.toUInt16 c))
    (g := fun pc1 c => decrypt pc1 (UInt8.toUInt16 c))
    (by
      rintro pc1 _ c rfl
      exact decrypt_encrypt pc1 c) (rfl : init = init) plain.flatten
  rw [hrun] at hplain hstates
  constructor
  · rw [Mealy.run_flatten] at hplain
    exact hplain
  · rw [Mealy.statesChunks_eq, Mealy.statesChunks_eq]
    exact hstates.imp fun _ _ => SameKeys.of_eq

/-- Two buffers that are encrypted, and their bytes decrypted as one buffer. -/
theorem decryptBufs_encryptBufs_sample :
    (decryptBufs init [(encryptBufs init [[0, 1], [255]]).2.flatten]).2.flatten = [0, 1, 255] ∧
      List.Forall₂ SameKeys
        (Mealy.statesChunks (fun pc1 c => encrypt pc1 (UInt8.toUInt16 c)) init [[0, 1], [255]])
        (Mealy.statesChunks (fun pc1 c => decrypt pc1 (UInt8.toUInt16 c)) init
          [(encryptBufs init [[0, 1], [255]]).2.flatten]) :=
  decryptBufs_encryptBufs [[0, 1], [255]] [(encryptBufs init [[0, 1], [255]]).2.flatten]
    (List.append_nil _)

end HandsomeMod.Native.Pc1
