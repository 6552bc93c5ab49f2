import HandsomeMod.ForStd.Align
import HandsomeMod.Native.Bcm4908img
import HandsomeMod.Spec.Bcm4908imgImage

/-!
# When a walk over a boot file system ends

The loops of `bcm4908img_bootfs_ls` and `bcm4908img_bootfs_mv` go on by the rounded length of each
node. A length that rounds to zero, 0 or one of the three largest 32-bit numbers, keeps them at the
node forever; the parser of the image does not look at it.
-/

namespace HandsomeMod.Native.Bcm4908img

open ForStd

/-- The `totlen` of the node at `offset` -/
def totlenAt (fp : List UInt8) (offset : Nat) : UInt32 :=
  UInt32.ofNat (leWord 4 (readAt fp offset sizeofUnknownNode) 4)

/-- The next offset of a loop that ends at a dirent with a name of `ends`. -/
def Node.next? (ends : List UInt8 → Bool) : Node → Option Nat
  | .failed => Option.none
  | .none => Option.none
  | .other next => some next
  | .tooLong next => some next
  | .dirent next name => if ends name then Option.none else some next

def nextNode (fp : List UInt8) (ends : List UInt8 → Bool) (offset : Nat) : Option Nat :=
  (readNode filenameMax fp offset).next? ends

/-- No node that the loop goes on behind has a length of 0 or of at least 2^32 - 3 bytes. -/
def LengthsAdvance (fp : List UInt8) (ends : List UInt8 → Bool) (start : Nat) : Prop :=
  ∀ offset next, Loop.Visits (nextNode fp ends) start offset →
    nextNode fp ends offset = some next → totlenAt fp offset ≠ 0 ∧ totlenAt fp offset < 0xfffffffd

/-! ### A node -/

/-- The length of a node is rounded up in 32 bits. -/
private theorem roundLen_toNat (totlen : UInt32) :
    (roundLen totlen).toNat = (totlen.toNat + 3) % 2 ^ 32 / 4 * 4 := by
  have hand := and_complement (Nat.mod_lt (totlen.toNat + 3) (Nat.two_pow_pos 32))
    (show 2 ≤ 32 by decide)
  rw [roundLen, UInt32.toNat_and, UInt32.toNat_add]
  exact hand

/-- The lengths that round to zero -/
private theorem roundLen_pos_iff (totlen : UInt32) :
    0 < (roundLen totlen).toNat ↔ totlen ≠ 0 ∧ totlen < 0xfffffffd := by
  have hlt := totlen.toNat_lt
  have hzero : totlen = 0 ↔ totlen.toNat = 0 := UInt32.toNat_inj.symm
  have hbig : totlen < 0xfffffffd ↔ totlen.toNat < 4294967293 := UInt32.lt_iff_toNat_lt
  rw [roundLen_toNat, Ne, hzero, hbig]
  omega

/-- The length of a name is less than the size of both buffers. -/
private theorem leWord_one_lt (buf : List UInt8) (pos : Nat) : leWord 1 buf pos < 256 := by
  have hbyte := (buf.getD (pos + 0) 0).toNat_lt
  simpa [leWord, loadLE, loadBE] using hbyte

/-- The name of a dirent is bounded, so more fuel reads no more of it. -/
private theorem readNode_succ (fp : List UInt8) (offset : Nat) :
    readNode (filenameMax + 1) fp offset = readNode filenameMax fp offset := by
  have hfits : ∀ dirent : List UInt8, ¬leWord 1 dirent 28 + 1 > filenameMax + 1 ∧
      ¬leWord 1 dirent 28 + 1 > filenameMax := by
    intro dirent
    have hlt := leWord_one_lt dirent 28
    rw [filenameMax]
    omega
  simp only [readNode, if_neg (hfits _).1, if_neg (hfits _).2]

/-- A loop goes on behind a node that is in the file, by its rounded length. -/
private theorem nextNode_eq_some {fp : List UInt8} {ends : List UInt8 → Bool} {offset next : Nat}
    (h : nextNode fp ends offset = some next) :
    offset < fp.length ∧ next = offset + (roundLen (totlenAt fp offset)).toNat := by
  -- the ways through `bootfs_ls` that reach the next node; each moves by the rounded length
  rw [nextNode, readNode] at h
  simp only at h
  split at h
  · cases h
  · next hread =>
    have hin : offset < fp.length := by
      have hlen : (readAt fp offset sizeofUnknownNode).length = sizeofUnknownNode :=
        not_not.mp hread
      rw [length_readAt, sizeofUnknownNode] at hlen
      omega
    refine ⟨hin, ?_⟩
    rw [totlenAt]
    split at h
    · cases h
    · split at h
      -- a node that is no dirent
      · exact (Option.some.inj h).symm
      · split at h
        · cases h
        · split at h
          · exact (Option.some.inj h).symm
          · split at h
            · cases h
            · rw [Node.next?] at h
              split at h
              · cases h
              · exact (Option.some.inj h).symm

/-! ### The loops -/

/-- The turns of `bootfs ls` move as `nextNode` says, and stop at no name. -/
theorem lsTurn_next (fp : List UInt8) (s : Ls) :
    (lsTurn fp s).getRight?.map Ls.offset = nextNode fp (fun _ => false) s.offset := by
  rw [lsTurn, nextNode, readNode_succ]
  cases readNode filenameMax fp s.offset <;> rfl

/-- The turns of `bootfs mv` move as `nextNode` says, and stop at the old name. -/
theorem mvTurn_next (fp : List UInt8) (info : Info) (behind : Nat → UInt8)
    (oldname newname : List UInt8) (offset : Nat) :
    (mvTurn fp info behind oldname newname offset).getRight?.map id =
      nextNode fp (fun name => cstr name = oldname) offset := by
  rw [mvTurn, nextNode]
  cases readNode filenameMax fp offset with
  | dirent next name =>
    by_cases hname : cstr name = oldname
    · simp [Node.next?, hname]
    · simp [Node.next?, hname]
  | _ => rfl

/-- Of every loop that follows the nodes -/
theorem terminates_iff_lengthsAdvance {σ α : Type} {turn : σ → α ⊕ σ} {pos : σ → Nat} {s : σ}
    {fp : List UInt8} {ends : List UInt8 → Bool}
    (hnext : ∀ s, (turn s).getRight?.map pos = nextNode fp ends (pos s)) :
    Loop.Terminates turn s ↔ LengthsAdvance fp ends (pos s) := by
  have hle : ∀ i j, nextNode fp ends i = some j → i ≤ j := by
    intro i j h
    rw [(nextNode_eq_some h).2]
    exact Nat.le_add_right _ _
  rw [Loop.terminates_iff_visits hnext (fun i j h => (nextNode_eq_some h).1) hle]
  refine forall₄_congr fun i j _ h => ?_
  rw [← roundLen_pos_iff, (nextNode_eq_some h).2]
  omega

/-- **The walks over a boot file system end exactly if each node that they go on behind has a length
that does not round to zero.** -/
theorem bootfs_walks_end_iff (fp : List UInt8) (info : Info) (behind : Nat → UInt8)
    (oldname newname : List UInt8) :
    (Loop.Terminates (lsTurn fp) (lsStart info) ↔
      LengthsAdvance fp (fun _ => false) info.bootfsOffset) ∧
      (Loop.Terminates (mvTurn fp info behind oldname newname) info.bootfsOffset ↔
        LengthsAdvance fp (fun name => cstr name = oldname) info.bootfsOffset) :=
  ⟨terminates_iff_lengthsAdvance (lsTurn_next fp),
    terminates_iff_lengthsAdvance (mvTurn_next fp info behind oldname newname)⟩

/-- A node of the length 0, of a type that the loops do not know -/
def emptyNode : List UInt8 := [0x85, 0x19, 0x03, 0x20, 0, 0, 0, 0, 0, 0, 0, 0]

/-- A node of length zero keeps both loops where they are. -/
theorem emptyNode_stuck (ends : List UInt8 → Bool) :
    ¬LengthsAdvance (blockImage emptyNode []) ends 0 := by
  have hread : readAt (blockImage emptyNode []) 0 sizeofUnknownNode = emptyNode :=
    readAt_blockImage [] (show 0 + 12 ≤ 12 by decide)
  have hnext : nextNode (blockImage emptyNode []) ends 0 = some 0 := by
    rw [nextNode, readNode, hread]
    rfl
  intro hadvance
  have hzero : totlenAt (blockImage emptyNode []) 0 = 0 := by
    rw [totlenAt, hread]
    decide
  exact (hadvance 0 0 .refl hnext).1 hzero

/-- The parser accepts an image in which neither walk ends. -/
theorem emptyNode_walks_endless : ∃ fp info, parse fp = .ok info ∧
    ¬Loop.Terminates (lsTurn fp) (lsStart info) ∧
      ¬Loop.Terminates (mvTurn fp info (fun _ => 0) [0x61] [0x62]) info.bootfsOffset := by
  have hlen : emptyNode.length ≤ 0x20000 := by decide
  refine ⟨blockImage emptyNode [], _,
    parse_blockImage hlen (by decide) (vendorTail_blockImage_nil hlen), ?_, ?_⟩
  · exact (terminates_iff_lengthsAdvance (lsTurn_next _)).not.mpr (emptyNode_stuck _)
  · exact (terminates_iff_lengthsAdvance (mvTurn_next _ _ _ _ _)).not.mpr (emptyNode_stuck _)

end HandsomeMod.Native.Bcm4908img
