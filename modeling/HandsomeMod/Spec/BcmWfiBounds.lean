import HandsomeMod.Native.BcmWfi
import HandsomeMod.Spec.BcmWfiFind

/-!
# Where a file is found

A search leaves the offset of a block that is in its range and in the device.
-/

namespace HandsomeMod.Native.BcmWfi

open ForStd MtdCore Fueled

variable {a : Search} {c : Cursor} {b : Block} {w : Walk} {r : Ret} {file : File}

/-- What a turn of the loop over the blocks does. -/
private theorem blockTurn_cases (a : Search) (c : Cursor) :
    (∃ reads rc, blockTurn a c = .inl (.inl (.ok { reads := reads, res := .error rc }))) ∨
      blockTurn a c = .inl (.inr (nextBlock a c (c.reads + 1) c.valid)) ∨
      ∃ buf, Opens a c buf ∧ blockTurn a c =
        .inr ({ cursor := c, buf := buf }, { blockOffs := 0, valid := c.valid }) := by
  by_cases hstop : a.stop ≤ c.offs
  · exact .inl ⟨_, _, blockTurn_end hstop⟩
  by_cases hmagic : HasMagic a c
  swap
  · exact .inr (.inl (blockTurn_skip ⟨by omega, hmagic⟩))
  by_cases hopens : ∃ buf, Opens a c buf
  · obtain ⟨buf, hopen⟩ := hopens
    exact .inr (.inr ⟨buf, hopen, blockTurn_open hopen⟩)
  · obtain ⟨rc, hturn⟩ := blockTurn_refuse (by omega) hmagic fun buf hopen => hopens ⟨buf, hopen⟩
    exact .inl ⟨_, rc, hturn⟩

/-- The turn of a block gives no file by itself. -/
private theorem blockTurn_ok (h : blockTurn a c = .inl (.inl (.ok r))) : r.res ≠ .ok file := by
  intro hfile
  rcases blockTurn_cases a c with ⟨reads, rc, hturn⟩ | hturn | ⟨buf, hopen, hturn⟩
  · rw [hturn] at h
    cases h
    cases hfile
  · rw [hturn] at h
    cases h
  · rw [hturn] at h
    cases h

/-- A file that is found is in the block that was opened. -/
private theorem nodeTurn_ok (hopen : Opens a b.cursor b.buf)
    (h : nodeTurn a b w = .inl (.inl (.ok r))) (hfile : r.res = .ok file) :
    file.offs = b.cursor.offs ∧ 40 ≤ a.mtd.erasesize.toNat := by
  -- only a turn that comes to the entry searched for, whole in the block, finds a file
  by_cases hlt : w.blockOffs.toNat < b.buf.length
  swap
  · rw [nodeTurn_leave hopen.length (by omega)] at h
    cases h
  by_cases hin : NodeInside a b.buf w.blockOffs.toNat
  swap
  · rw [nodeTurn_outside hopen.length hlt hin] at h
    cases h
  by_cases htarget : IsTarget a b.buf w.blockOffs.toNat
  swap
  · obtain ⟨w', hvisit, -⟩ := visitNode_pass hin htarget
    rw [nodeTurn_eq_visit hopen.length hlt, hvisit] at h
    cases h
  have hle := htarget.le hin
  have hlength := hopen.length
  cases hvalid : w.valid with
  | false =>
    rw [nodeTurn_invalid hopen.length hlt hin htarget hvalid] at h
    cases h
    cases hfile
  -- a found file starts at the block that was opened
  | true =>
    by_cases hcopy : CopyInside a b.buf w.blockOffs.toNat
    swap
    · rw [nodeTurn_copy hopen.length hin htarget hvalid hcopy] at h
      cases h
    obtain ⟨name, hfound⟩ := nodeTurn_found hopen.length hin htarget hvalid hcopy
    rw [hfound] at h
    cases h
    cases hfile
    exact ⟨rfl, by omega⟩

/-- A block that is skipped is left at its end. -/
private theorem blockTurn_next {c' : Cursor} (h : blockTurn a c = .inl (.inr c')) :
    c'.offs = c.offs + a.mtd.erasesize.toNat := by
  rcases blockTurn_cases a c with ⟨reads, rc, hturn⟩ | hturn | ⟨buf, hopen, hturn⟩
  · rw [hturn] at h
    cases h
  · rw [hturn] at h
    cases h
    rfl
  · rw [hturn] at h
    cases h

/-- The walk starts in the block that was opened. -/
private theorem blockTurn_enter (h : blockTurn a c = .inr (b, w)) :
    b.cursor = c ∧ Opens a c b.buf := by
  rcases blockTurn_cases a c with ⟨reads, rc, hturn⟩ | hturn | ⟨buf, hopen, hturn⟩
  · rw [hturn] at h
    cases h
  · rw [hturn] at h
    cases h
  · rw [hturn] at h
    cases h
    exact ⟨rfl, hopen⟩

/-- A block that was walked through is left at its end. -/
private theorem nodeTurn_next_block {c' : Cursor} (h : nodeTurn a b w = .inl (.inr c')) :
    c'.offs = b.cursor.offs + a.mtd.erasesize.toNat := by
  rw [nodeTurn] at h
  split at h
  · split at h
    · cases h
    · cases h
    · cases h
  · cases h
    rfl

/-- Inside of a block, it is open, and not in front of `offs`. -/
def InBlock (a : Search) (offs : Nat) : Cursor ⊕ Block × Walk → Prop
  | .inl c => offs ≤ c.offs
  | .inr (b, _) => offs ≤ b.cursor.offs ∧ Opens a b.cursor b.buf

/-- The search stays on the blocks from its start on. -/
private theorem inBlock_step {offs : Nat} {s s' : Cursor ⊕ Block × Walk} (h : InBlock a offs s)
    (hstep : Loop.nest (blockTurn a) (nodeTurn a) s = .inr s') : InBlock a offs s' := by
  cases s with
  | inl c =>
    have hle : offs ≤ c.offs := h
    -- between two blocks the offset only grows
    cases hturn : blockTurn a c with
    | inl x =>
      cases x with
      | inl ret =>
        rw [Loop.nest_inl_end hturn] at hstep
        cases hstep
      | inr c' =>
        rw [Loop.nest_inl_next hturn] at hstep
        cases hstep
        rw [InBlock, blockTurn_next hturn]
        omega
    | inr p =>
      rw [Loop.nest_inl_enter hturn] at hstep
      cases hstep
      obtain ⟨hc, hopen⟩ := blockTurn_enter hturn
      rw [InBlock, hc]
      exact ⟨hle, hopen⟩
  | inr p =>
    obtain ⟨hle, hopen⟩ : offs ≤ p.1.cursor.offs ∧ Opens a p.1.cursor p.1.buf := h
    -- inside of a block it stays
    cases hturn : nodeTurn a p.1 p.2 with
    | inl x =>
      cases x with
      | inl ret =>
        rw [Loop.nest_inr_end hturn] at hstep
        cases hstep
      | inr c' =>
        rw [Loop.nest_inr_leave hturn] at hstep
        cases hstep
        rw [InBlock, nodeTurn_next_block hturn]
        omega
    | inr w' =>
      rw [Loop.nest_inr_next hturn] at hstep
      cases hstep
      exact ⟨hle, hopen⟩

/-- A file is found in a block of the range, and in the device. -/
theorem find_bounds {offs reads : Nat} (h : Gives (a.find offs reads) r)
    (hfile : r.res = .ok file) :
    offs ≤ file.offs ∧ file.offs < a.stop ∧ 40 ≤ a.mtd.erasesize.toNat ∧
      file.offs + a.mtd.erasesize.toNat ≤ a.mtd.size := by
  obtain ⟨fuel, hrun⟩ := h
  obtain ⟨s, hreach, hturn⟩ := Loop.reaches_of_run hrun
  have hin : InBlock a offs s := hreach.invariant (fun _ _ => inBlock_step) (le_refl offs)
  -- a turn over the blocks finds no file, so the search ended in a block
  cases s with
  | inl c =>
    cases hblock : blockTurn a c with
    | inl x =>
      cases x with
      | inl ret =>
        rw [Loop.nest_inl_end hblock] at hturn
        cases hturn
        exact absurd hfile (blockTurn_ok hblock)
      | inr c' =>
        rw [Loop.nest_inl_next hblock] at hturn
        cases hturn
    | inr p =>
      rw [Loop.nest_inl_enter hblock] at hturn
      cases hturn
  | inr p =>
    obtain ⟨hle, hopen⟩ : offs ≤ p.1.cursor.offs ∧ Opens a p.1.cursor p.1.buf := hin
    cases hnode : nodeTurn a p.1 p.2 with
    | inl x =>
      cases x with
      | inl ret =>
        rw [Loop.nest_inr_end hnode] at hturn
        cases hturn
        obtain ⟨hoffs, hes⟩ := nodeTurn_ok hopen hnode hfile
        -- the block was read as a whole, so it is in the device
        have hlt := hopen.lt
        have hread := mtdRead_ok hopen.read
        omega
      | inr c' =>
        rw [Loop.nest_inr_leave hnode] at hturn
        cases hturn
    | inr w' =>
      rw [Loop.nest_inr_next hnode] at hturn
      cases hturn

end HandsomeMod.Native.BcmWfi
