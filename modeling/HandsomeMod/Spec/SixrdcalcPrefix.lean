import HandsomeMod.Native.Sixrdcalc

/-!
# The prefixes of `6rdcalc`

The bits of the printed prefix, and that IPv4 hosts of one domain get disjoint prefixes.
-/

namespace HandsomeMod.Native.Sixrdcalc

open ForStd

/-- An address in memory. -/
def memOf {n : Nat} (addr : Vector UInt8 n) : Mem := fun i => addr[i]?.getD 0

/-- The bits of an address, its first one being the most significant. -/
def bits {n : Nat} (addr : Vector UInt8 n) (i : Nat) : Bool := bit (memOf addr) i

/-- The prefixes `p` and `q`, of the same length, have an address in common. -/
def Overlap (len : Nat) (p q : Addr .inet6) : Prop :=
  ∃ addr : Addr .inet6, (∀ i < len, bits addr i = bits p i) ∧ ∀ i < len, bits addr i = bits q i

/-! ### One bit -/

/-- The mask of a bit. -/
private theorem bitMask_toBitVec (it : Nat) :
    (bitMask it).toBitVec = BitVec.twoPow 8 (7 - it % 8) := by
  have hall : ∀ k < 8, (UInt8.ofNat (128 >>> k)).toBitVec = BitVec.twoPow 8 (7 - k) := by decide
  exact hall (it % 8) (Nat.mod_lt it (by decide))

/-- A bit of an address is one of its bytes. -/
private theorem bits_eq {n : Nat} {addr : Vector UInt8 n} {i : Nat} {byte : UInt8}
    (h : addr[i / 8]? = some byte) : bits addr i = byte.toBitVec.getLsbD (7 - i % 8) := by
  rw [bits, bit, memOf, h]
  rfl

/-- The test of a bit. -/
private theorem and_bitMask_ne_zero (byte : UInt8) (it : Nat) :
    decide (byte &&& bitMask it ≠ 0) = byte.toBitVec.getLsbD (7 - it % 8) := by
  -- the mask has the one bit, counted from the top
  have hand : (byte &&& bitMask it).toBitVec =
      if byte.toBitVec.getLsbD (7 - it % 8) then BitVec.twoPow 8 (7 - it % 8) else 0 := by
    rw [UInt8.toBitVec_and, bitMask_toBitVec, BitVec.and_twoPow]
    rfl
  have hmask : BitVec.twoPow 8 (7 - it % 8) ≠ 0 := by
    intro hzero
    have hlsb := congrArg (BitVec.getLsbD · (7 - it % 8)) hzero
    simp only [BitVec.getLsbD_twoPow] at hlsb
    simp at hlsb
    omega
  rw [Bool.eq_iff_iff, decide_eq_true_iff, Ne, ← UInt8.toBitVec_inj, hand]
  split
  · rename_i htrue
    exact ⟨fun _ => htrue, fun _ => hmask⟩
  · simp [*]

/-- Writing a bit. -/
private theorem getLsbD_assign (byte : UInt8) (it : Nat) (value : Bool) {j : Nat} (hj : j < 8) :
    (if value then byte ||| bitMask it else byte &&& ~~~bitMask it).toBitVec.getLsbD j =
      if j = 7 - it % 8 then value else byte.toBitVec.getLsbD j := by
  have htwo : (bitMask it).toBitVec.getLsbD j = decide (j = 7 - it % 8) := by
    rw [bitMask_toBitVec, BitVec.getLsbD_twoPow, decide_eq_true (by omega), Bool.true_and]
    exact decide_eq_decide.mpr eq_comm
  cases value with
  | true =>
    rw [if_pos rfl, UInt8.toBitVec_or, BitVec.getLsbD_or, htwo]
    split <;> simp [*]
  | false =>
    rw [if_neg Bool.false_ne_true, UInt8.toBitVec_and, UInt8.toBitVec_not, BitVec.getLsbD_and,
      BitVec.getLsbD_not, htwo, decide_eq_true hj]
    split <;> simp [*]

/-- Bits inside of an address are read. -/
private theorem testBit_eq {n : Nat} (addr : Vector UInt8 n) {it : Nat} (h : it < 8 * n) :
    testBit addr it = .ok (bits addr it) := by
  have hbyte : addr[it / 8]? = some addr[it / 8] := Vector.getElem?_eq_getElem (by omega)
  rw [testBit, Nat.shiftRight_eq_div_pow, show it / 2 ^ 3 = it / 8 from rfl, hbyte, bits_eq hbyte,
    ← and_bitMask_ne_zero]

/-- A bit inside of an address is assigned, the others stay. -/
theorem assignBit_spec {n : Nat} (addr : Vector UInt8 n) {it : Nat} (h : it < 8 * n)
    (value : Bool) : ∃ addr', assignBit addr it value = .ok addr' ∧
      ∀ i, bits addr' i = if i = it then value else bits addr i := by
  have hlt : it / 8 < n := by omega
  have hbyte : addr[it / 8]? = some addr[it / 8] := Vector.getElem?_eq_getElem hlt
  rw [assignBit, Nat.shiftRight_eq_div_pow, show it / 2 ^ 3 = it / 8 from rfl, hbyte]
  refine ⟨_, rfl, fun i => ?_⟩
  -- in the byte that is written only the bit itself changes
  by_cases hi : i / 8 = it / 8
  · have hset : ∀ byte, (addr.setIfInBounds (it / 8) byte)[i / 8]? = some byte := by
      intro byte
      rw [hi]
      exact Vector.getElem?_setIfInBounds_self_of_lt hlt
    have hold : addr[i / 8]? = some addr[it / 8] := by
      rw [hi]
      exact hbyte
    rw [bits_eq (hset _), bits_eq hold, getLsbD_assign _ _ _ (by omega)]
    exact if_congr (by omega) rfl rfl
  · have hset : ∀ byte, (addr.setIfInBounds (it / 8) byte)[i / 8]? = addr[i / 8]? := fun byte =>
      Vector.getElem?_setIfInBounds_ne (Ne.symm hi)
    have hne : i ≠ it := by
      rintro rfl
      exact hi rfl
    rw [if_neg hne, bits, bits, bit, bit, memOf, memOf, hset]

/-! ### The loops -/

/-- The loop copies the bits of the IPv4 address. -/
theorem combineLoop_spec (v4 : Addr .inet) (v6 : Addr .inet6) (v6it v4it : Nat) (h4 : v4it ≤ 32)
    (h6 : v6it + (32 - v4it) ≤ 128) :
    ∃ v6', combineLoop v4 v6 v6it v4it = .ok (v6', v6it + (32 - v4it)) ∧
      ∀ i, bits v6' i = if v6it ≤ i ∧ i < v6it + (32 - v4it) then bits v4 (v4it + (i - v6it))
        else bits v6 i := by
  generalize hk : 32 - v4it = k at h6 ⊢
  induction k generalizing v6 v6it v4it with
  | zero =>
    rw [combineLoop, if_neg (by omega)]
    refine ⟨v6, rfl, fun i => ?_⟩
    rw [if_neg (by omega)]
  | succ k ih =>
    obtain ⟨v6a, hassign, hbits⟩ := assignBit_spec v6 (show v6it < 8 * 16 by omega) (bits v4 v4it)
    obtain ⟨v6', hloop, hbits'⟩ := ih v6a (v6it + 1) (v4it + 1) (by omega) (by omega) (by omega)
    rw [combineLoop, if_pos (by omega), testBit_eq v4 (show v4it < 8 * 4 by omega)]
    simp only [bind, Except.bind, hassign]
    refine ⟨v6', ?_, fun i => ?_⟩
    · rw [hloop]
      congr 2
      omega
    · rw [hbits' i, hbits i]
      -- the bit of this turn, one of those to come, or another one
      by_cases hi : i = v6it
      · rw [if_neg (by omega), if_pos hi, if_pos (by omega), hi, Nat.sub_self, Nat.add_zero]
      · by_cases hin : v6it + 1 ≤ i ∧ i < v6it + 1 + k
        · rw [if_pos hin, if_pos (by omega), show v4it + 1 + (i - (v6it + 1)) = v4it + (i - v6it) by
            omega]
        · rw [if_neg hin, if_neg hi, if_neg (by omega)]

/-- The loop clears the bits behind. -/
theorem clearLoop_spec (v6 : Addr .inet6) (v6it : Nat) :
    ∃ v6', clearLoop v6 v6it = .ok v6' ∧
      ∀ i, bits v6' i = if v6it ≤ i ∧ i < 128 then false else bits v6 i := by
  generalize hk : 128 - v6it = k
  induction k generalizing v6 v6it with
  | zero =>
    rw [clearLoop, if_neg (by omega)]
    refine ⟨v6, rfl, fun i => ?_⟩
    rw [if_neg (by omega)]
  | succ k ih =>
    obtain ⟨v6a, hassign, hbits⟩ := assignBit_spec v6 (show v6it < 8 * 16 by omega) false
    obtain ⟨v6', hloop, hbits'⟩ := ih v6a (v6it + 1) (by omega)
    rw [clearLoop, if_pos (by omega)]
    simp only [bind, Except.bind, hassign]
    refine ⟨v6', hloop, fun i => ?_⟩
    rw [hbits' i, hbits i]
    -- the bit of this turn, one of those to come, or another one
    by_cases hi : i = v6it
    · rw [if_neg (by omega), if_pos hi, if_pos (by omega)]
    · by_cases hin : v6it + 1 ≤ i ∧ i < 128
      · rw [if_pos hin, if_pos (by omega)]
      · rw [if_neg hin, if_neg hi, if_neg (by omega)]

/-- The bits of `v6` up to `v6it`, the low ones of `v4`, and zeros. -/
theorem subnet_spec (v6 : Addr .inet6) (v4 : Addr .inet) {v6it v4it : Nat} (h4 : v4it ≤ 32)
    (h6 : 32 - v4it + v6it ≤ 128) :
    ∃ v6', subnet v6 v6it v4 v4it = .ok v6' ∧
      (∀ i < v6it, bits v6' i = bits v6 i) ∧
      (∀ j < 32 - v4it, bits v6' (v6it + j) = bits v4 (v4it + j)) ∧
      ∀ i, 32 - v4it + v6it ≤ i → i < 128 → bits v6' i = false := by
  obtain ⟨v6a, hcombine, hbits⟩ := combineLoop_spec v4 v6 v6it v4it h4 (by omega)
  obtain ⟨v6', hclear, hbits'⟩ := clearLoop_spec v6a (v6it + (32 - v4it))
  refine ⟨v6', ?_, fun i hi => ?_, fun j hj => ?_, fun i hi hi' => ?_⟩
  · rw [subnet, hcombine]
    exact hclear
  · rw [hbits', if_neg (by omega), hbits, if_neg (by omega)]
  · rw [hbits', if_neg (by omega), hbits, if_pos (by omega), Nat.add_sub_cancel_left]
  · rw [hbits', if_pos (by omega)]

/-! ### Disjoint prefixes -/

/-- Addresses with the same bits are the same. -/
private theorem addr_ext {n : Nat} {a b : Vector UInt8 n} (h : ∀ i < 8 * n, bits a i = bits b i) :
    a = b := by
  apply Vector.ext
  intro k hk
  have hbyte : memOf a k = memOf b k := byte_ext fun j hj => h (8 * k + j) (by omega)
  rw [memOf, memOf, Vector.getElem?_eq_getElem hk, Vector.getElem?_eq_getElem hk] at hbyte
  exact hbyte

/-- Hosts of one IPv4 prefix whose IPv6 prefixes meet are the same. -/
theorem eq_of_overlap {v6 p q : Addr .inet6} {a b : Addr .inet} {v6it v4it : Nat} (h4 : v4it ≤ 32)
    (h6 : 32 - v4it + v6it ≤ 128) (hp : subnet v6 v6it a v4it = .ok p)
    (hq : subnet v6 v6it b v4it = .ok q) (hdomain : ∀ i < v4it, bits a i = bits b i)
    (hmeet : Overlap (32 - v4it + v6it) p q) : a = b := by
  obtain ⟨p', hp', -, hbits_p, -⟩ := subnet_spec v6 a h4 h6
  obtain ⟨q', hq', -, hbits_q, -⟩ := subnet_spec v6 b h4 h6
  cases Except.ok.inj (hp.symm.trans hp')
  cases Except.ok.inj (hq.symm.trans hq')
  obtain ⟨addr, haddr_p, haddr_q⟩ := hmeet
  apply addr_ext
  intro i hi
  -- the common bits agree, the others are in the prefix
  by_cases hlow : i < v4it
  · exact hdomain i hlow
  · have hi32 : i < 32 := hi
    have hj : i - v4it < 32 - v4it := by omega
    rw [show i = v4it + (i - v4it) by omega, ← hbits_p _ hj, ← hbits_q _ hj,
      ← haddr_p _ (by omega), ← haddr_q _ (by omega)]

/-! ### Whole runs -/

/-- The arguments that pass the checks, with what they are parsed to. -/
structure Accepted (w : Nat) (libc : Inet) (behind arg6 arg4 : List UInt8) (v6 : Addr .inet6)
    (n : Nat) (v4 : Addr .inet) (m : Nat) : Prop where
  parse6 : parseStr w libc .inet6 (v6str arg6) = .ok (v6, n)
  parse4 : parseStr w libc .inet (v4str behind arg4) = .ok (v4, m)
  combined : 32 - m + n ≤ 128

/-- A mask that is accepted has no more bits than an address. -/
theorem parseStr_mask {w : Nat} {libc : Inet} {af : Af} {str : List UInt8} {addr : Addr af}
    {mask : Nat} (h : parseStr w libc af str = .ok (addr, mask)) : mask ≤ af.maskMax := by
  rw [parseStr] at h
  split at h
  · cases h
  · split at h
    · split at h <;> cases h
    · simp only at h
      split at h
      · cases h
      · obtain ⟨-, rfl⟩ := Prod.mk.inj (Except.ok.inj h)
        omega

variable {w : Nat} {libc : Inet} {behind arg6 arg4 : List UInt8} {v6 : Addr .inet6} {n : Nat}
  {v4 : Addr .inet} {m : Nat}

/-- Accepted arguments give a prefix, which is printed unless `inet_ntop` fails. -/
theorem main_eq (name : List UInt8) (h : Accepted w libc behind arg6 arg4 v6 n v4 m)
    {v6' : Addr .inet6} (hsubnet : subnet v6 n v4 m = .ok v6') :
    main w libc behind [name, arg6, arg4] = match libc.inetNtop v6' with
      | none => .error .error
      | some text => .ok (text ++ ascii "/" ++ decText (32 - m + n) ++ ascii "\n") := by
  have hmask := h.combined
  rw [main]
  simp only [bind, Except.bind, pure, Except.pure, h.parse6, h.parse4, hsubnet]
  refine (if_neg (by omega)).trans ?_
  cases libc.inetNtop v6' <;> rfl

/-- The printed prefix has the first `n` bits of the IPv6 address and the host bits of the IPv4
    address, and is disjoint from that of any other host of the same IPv4 prefix. -/
theorem main_prefix (w : Nat) (libc : Inet) (behind name arg6 arg4 : List UInt8)
    (v6 : Addr .inet6) (n : Nat) (v4 : Addr .inet) (m : Nat)
    (h : Accepted w libc behind arg6 arg4 v6 n v4 m) :
    ∃ v6', subnet v6 n v4 m = .ok v6' ∧
      (main w libc behind [name, arg6, arg4] = match libc.inetNtop v6' with
        | none => .error .error
        | some text => .ok (text ++ ascii "/" ++ decText (n + 32 - m) ++ ascii "\n")) ∧
      (∀ i < n, bits v6' i = bits v6 i) ∧
      (∀ j < 32 - m, bits v6' (n + j) = bits v4 (m + j)) ∧
      (∀ i, n + 32 - m ≤ i → i < 128 → bits v6' i = false) ∧
      ∀ behind' arg6' arg4' v4' v6'', Accepted w libc behind' arg6' arg4' v6 n v4' m →
        subnet v6 n v4' m = .ok v6'' → (∀ i < m, bits v4 i = bits v4' i) →
        Overlap (n + 32 - m) v6' v6'' → v4 = v4' := by
  have hm : m ≤ 32 := parseStr_mask h.parse4
  have hlen : 32 - m + n = n + 32 - m := by omega
  obtain ⟨v6', hsubnet, hkeep, hhost, hzero⟩ := subnet_spec v6 v4 hm h.combined
  rw [hlen] at hzero
  refine ⟨v6', hsubnet, ?_, hkeep, hhost, hzero, ?_⟩
  · rw [← hlen]
    exact main_eq name h hsubnet
  · intro _ _ _ v4' v6'' _ hsubnet' hdomain hmeet
    exact eq_of_overlap hm h.combined hsubnet hsubnet' hdomain (hlen ▸ hmeet)

/-- The C library on the addresses of one call. -/
def sampleLibc : Inet where
  inetPton
    | .inet6, str => if str = ascii "2001:db8::" then
        .ok #v[0x20, 0x01, 0x0d, 0xb8, 0, 0, 0, 0, 0, 0, 0, 0, 0, 0, 0, 0] else .error 0
    | .inet, str => if str = ascii "10.1.2.3" then .ok #v[10, 1, 2, 3] else .error 0
  inetNtop addr :=
    if addr.toList = [0x20, 0x01, 0x0d, 0xb8, 1, 2, 3, 0, 0, 0, 0, 0, 0, 0, 0, 0] then
      some (ascii "2001:db8:102:300::") else none

/-- 2001:db8::/32 and 10.1.2.3/8. -/
theorem main_prefix_sample : ∃ v6',
    subnet #v[0x20, 0x01, 0x0d, 0xb8, 0, 0, 0, 0, 0, 0, 0, 0, 0, 0, 0, 0] 32 #v[10, 1, 2, 3] 8 =
      .ok v6' ∧
    ∀ j < 32 - 8, bits v6' (32 + j) = bits (#v[10, 1, 2, 3] : Addr .inet) (8 + j) := by
  have haccepted : Accepted 64 sampleLibc [] (ascii "2001:db8::/32") (ascii "10.1.2.3/8")
      #v[0x20, 0x01, 0x0d, 0xb8, 0, 0, 0, 0, 0, 0, 0, 0, 0, 0, 0, 0] 32 #v[10, 1, 2, 3] 8 :=
    ⟨by rfl, by rfl, by decide⟩
  obtain ⟨v6', hsubnet, -, -, hhost, -⟩ :=
    main_prefix 64 sampleLibc [] (ascii "6rdcalc") _ _ _ 32 _ 8 haccepted
  exact ⟨v6', hsubnet, hhost⟩

end HandsomeMod.Native.Sixrdcalc
