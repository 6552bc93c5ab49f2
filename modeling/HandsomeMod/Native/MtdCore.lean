import HandsomeMod.ForStd.Mem

/-!
# The kernel's flash devices

What drivers see of an MTD device. Offsets are `loff_t`; no device is so large that they overflow.
-/

namespace HandsomeMod.Native.MtdCore

open ForStd

/-- The errors that these drivers give and pass on. -/
inductive Errno where
  | enoent
  | eio
  | enomem
  | einval
  | ebadmsg
  | euclean
  deriving DecidableEq, Repr

/-- What a function returns for an error. -/
def Errno.toRet : Errno → Int
  | .enoent => -2
  | .eio => -5
  | .enomem => -12
  | .einval => -22
  | .ebadmsg => -74
  | .euclean => -117

/-- An error is returned as a negative number. -/
theorem Errno.toRet_neg (rc : Errno) : rc.toRet < 0 := by
  cases rc <;> decide

/-- `struct mtd_info`, with the flash. The read of number `n` at an offset fails, or brings no more
bytes than its outcome says. -/
structure MtdInfo where
  size : Nat
  erasesize : UInt32
  flash : Mem
  outcome : Nat → Nat → Except Errno Nat

/-- `mtd_read`, the read of number `n`: the bytes that `retlen` counts. -/
def mtdRead (mtd : MtdInfo) (n offset len : Nat) : Except Errno (List UInt8) :=
  if offset < mtd.size ∧ len ≤ mtd.size - offset then
    if len = 0 then .ok []
    else (mtd.outcome n offset).map fun k => bytesAt mtd.flash offset (min k len)
  else .error .einval

/-- A read that succeeds lies in the device and brings the first bytes of the range. -/
theorem mtdRead_ok {mtd : MtdInfo} {n offset len : Nat} {l : List UInt8}
    (h : mtdRead mtd n offset len = .ok l) :
    offset < mtd.size ∧ len ≤ mtd.size - offset ∧
      ∃ k ≤ len, l = bytesAt mtd.flash offset k := by
  rw [mtdRead] at h
  split at h
  · next hin =>
    refine ⟨hin.1, hin.2, ?_⟩
    split at h
    · cases h
      exact ⟨0, Nat.zero_le _, rfl⟩
    -- the device may read fewer bytes than it was asked for
    · cases hout : mtd.outcome n offset with
      | error rc =>
        rw [hout] at h
        cases h
      | ok k =>
        rw [hout] at h
        cases h
        exact ⟨min k len, Nat.min_le_right _ _, rfl⟩
  · cases h

def mtdWriteable : Nat := 0x400

/-- `struct mtd_partition` -/
structure MtdPartition where
  name : String
  offset : Nat
  size : Nat
  maskFlags : Nat := 0
  deriving DecidableEq, Repr

end HandsomeMod.Native.MtdCore
