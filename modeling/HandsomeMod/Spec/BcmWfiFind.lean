import HandsomeMod.Spec.BcmWfiNodes

/-!
# When the search for a file is safe

The search steps over a node by the length that the node gives, whatever it is, and compares names
without a look at `nsize`. `ScansSafely` is what the blocks have to be like for it to end inside of
them with what it is looking for.
-/

namespace HandsomeMod.Native.BcmWfi

open ForStd MtdCore

variable (a : Search)

/-! ### The blocks and the nodes that the search comes to -/

/-- The node behind the one at `i`. -/
def nextNode (buf : List UInt8) (i : Nat) : Option Nat :=
  if i < buf.length ∧ NodeInside a buf i ∧ ¬IsTarget a buf i then some (nodeEnd a buf i) else none

/-- The step to the next node, which notes a mark. -/
def WalkStep (buf : List UInt8) (w w' : Walk) : Prop :=
  nextNode a buf w.blockOffs.toNat = some w'.blockOffs.toNat ∧
    w'.valid = (w.valid || decide (IsMark a buf w.blockOffs.toNat))

/-- The search comes to `w` in a block that it enters with `valid`. -/
def Walks (buf : List UInt8) (valid : Bool) (w : Walk) : Prop :=
  Relation.ReflTransGen (WalkStep a buf) { blockOffs := 0, valid := valid } w

/-- The first two bytes of a block can be read, and are the magic. -/
def HasMagic (c : Cursor) : Prop :=
  ∃ magic, mtdRead a.mtd c.reads c.offs 2 = .ok magic ∧ magic.length = 2 ∧
    fieldAt a.endian 2 magic 0 = jffs2MagicBitmask

/-- A block that the search passes over. -/
def Skips (c : Cursor) : Prop := c.offs < a.stop ∧ ¬HasMagic a c

/-- A block with the magic that can be read, and its bytes. -/
structure Opens (c : Cursor) (buf : List UInt8) : Prop where
  lt : c.offs < a.stop
  magic : HasMagic a c
  read : mtdRead a.mtd (c.reads + 1) c.offs a.mtd.erasesize.toNat = .ok buf
  length : buf.length = a.mtd.erasesize.toNat

/-- The search goes on behind a block. -/
def Passes (c c' : Cursor) : Prop :=
  (Skips a c ∧ c' = nextBlock a c (c.reads + 1) c.valid) ∨
    ∃ buf w, Opens a c buf ∧ Walks a buf c.valid w ∧ buf.length ≤ w.blockOffs.toNat ∧
      c' = nextBlock a c (c.reads + 2) w.valid

/-- The search comes to the block at `c'`. -/
def Scans (c c' : Cursor) : Prop := Relation.ReflTransGen (Passes a) c c'

/-! ### The property -/

/-- A directory entry whose name is this. -/
structure IsNamed (buf : List UInt8) (i : Nat) (s : List UInt8) : Prop where
  dirent : IsDirent a.endian buf i
  nsize : nsizeAt a.endian buf i = s.length
  begins : Begins buf i s

/-- An entry named `1-openwrt` is in front of `w` in the block at `c`, or in an earlier one. -/
def MarkedBefore (start c : Cursor) (buf : List UInt8) (w : Walk) : Prop :=
  (∃ w₀, Walks a buf c.valid w₀ ∧ Relation.TransGen (WalkStep a buf) w₀ w ∧
    IsNamed a buf w₀.blockOffs.toNat openwrtName) ∨
  ∃ c₀ buf₀ w₀, Scans a start c₀ ∧ Relation.TransGen (Passes a) c₀ c ∧ Opens a c₀ buf₀ ∧
    Walks a buf₀ c₀.valid w₀ ∧ IsNamed a buf₀ w₀.blockOffs.toNat openwrtName

/-- The block at `offs` holds an entry for the file, behind one named `1-openwrt`. -/
def Holds (start : Cursor) (offs : Nat) : Prop :=
  ∃ c buf w, Scans a start c ∧ c.offs = offs ∧ Opens a c buf ∧ Walks a buf c.valid w ∧
    IsTarget a buf w.blockOffs.toNat ∧ a.name.length ≤ nsizeAt a.endian buf w.blockOffs.toNat ∧
    MarkedBefore a start c buf w

def start (offs reads : Nat) : Cursor := { offs := offs, reads := reads, valid := false }

/-- The search ends inside of the blocks, and where it finds the file there is one. -/
def FindsSafely (offs reads : Nat) : Prop :=
  ∃ fuel r, jffs2FindFile a offs reads fuel = some (.ok r) ∧
    ∀ file, r.res = .ok file → Holds a (start offs reads) file.offs

/-- What the blocks have to be like for the search. -/
structure ScansSafely (offs reads : Nat) : Prop where
  advances : a.mtd.erasesize = 0 → a.stop ≤ offs
  inside : ∀ c buf w, Scans a (start offs reads) c → Opens a c buf → Walks a buf c.valid w →
    w.blockOffs.toNat < buf.length → NodeInside a buf w.blockOffs.toNat
  acyclic : ∀ c buf, Scans a (start offs reads) c → Opens a c buf →
    Loop.Acyclic (nextNode a buf) 0
  /-- The entry that the search ends with has the whole name, and a mark in front of it is one. -/
  entry : ∀ c buf w, Scans a (start offs reads) c → Opens a c buf → Walks a buf c.valid w →
    NodeInside a buf w.blockOffs.toNat → IsTarget a buf w.blockOffs.toNat → w.valid = true →
    CopyInside a buf w.blockOffs.toNat ∧
      a.name.length ≤ nsizeAt a.endian buf w.blockOffs.toNat ∧
      MarkedBefore a (start offs reads) c buf w

variable {a}

/-! ### Turns -/

variable {b : Block} {w w' : Walk}

/-- Inside of the block a turn visits a node. -/
theorem nodeTurn_eq_visit (hlen : b.buf.length = a.mtd.erasesize.toNat)
    (h : w.blockOffs.toNat < b.buf.length) :
    nodeTurn a b w =
      match visitNode a b w with
      | .error fault => .inl (.inl (.error fault))
      | .ok (.inl ret) => .inl (.inl (.ok ret))
      | .ok (.inr w') => .inr w' := by
  rw [nodeTurn]
  exact if_pos (UInt32.lt_iff_toNat_lt.mpr (hlen ▸ h))

/-- At the end of the block the walk goes on with the next one. -/
theorem nodeTurn_leave (hlen : b.buf.length = a.mtd.erasesize.toNat)
    (h : b.buf.length ≤ w.blockOffs.toNat) :
    nodeTurn a b w = .inl (.inr (nextBlock a b.cursor (b.cursor.reads + 2) w.valid)) := by
  rw [nodeTurn, if_neg]
  rw [UInt32.lt_iff_toNat_lt, ← hlen]
  omega

/-- A node that is not inside of the block is read outside. -/
theorem nodeTurn_outside (hlen : b.buf.length = a.mtd.erasesize.toNat)
    (h : w.blockOffs.toNat < b.buf.length) (hin : ¬NodeInside a b.buf w.blockOffs.toNat) :
    nodeTurn a b w = .inl (.inl (.error .outOfBounds)) := by
  rw [nodeTurn_eq_visit hlen h, visitNode_outside hin]

/-- The file without the mark in front of it ends the search. -/
theorem nodeTurn_invalid (hlen : b.buf.length = a.mtd.erasesize.toNat)
    (h : w.blockOffs.toNat < b.buf.length) (hin : NodeInside a b.buf w.blockOffs.toNat)
    (htarget : IsTarget a b.buf w.blockOffs.toNat) (hvalid : w.valid = false) :
    nodeTurn a b w =
      .inl (.inl (.ok { reads := b.cursor.reads + 2, res := .error .einval })) := by
  rw [nodeTurn_eq_visit hlen h, visitNode_target hin htarget, hvalid]
  rfl

/-- The header of a node that is searched for is inside of the block. -/
theorem IsTarget.le (htarget : IsTarget a b.buf w.blockOffs.toNat)
    (hin : NodeInside a b.buf w.blockOffs.toNat) : w.blockOffs.toNat + 40 ≤ b.buf.length := by
  obtain ⟨hle, -⟩ := hin.2 htarget.1
  omega

/-- The file behind the mark is found. -/
theorem nodeTurn_found (hlen : b.buf.length = a.mtd.erasesize.toNat)
    (hin : NodeInside a b.buf w.blockOffs.toNat)
    (htarget : IsTarget a b.buf w.blockOffs.toNat) (hvalid : w.valid = true)
    (hcopy : CopyInside a b.buf w.blockOffs.toNat) :
    ∃ name, nodeTurn a b w = .inl (.inl (.ok
      { reads := b.cursor.reads + 2
        res := .ok
          { offs := b.cursor.offs
            outName := name
            outNameLen := nsizeAt a.endian b.buf w.blockOffs.toNat } })) := by
  have hle := htarget.le hin
  obtain ⟨name, hname⟩ := (copyName_iff hle).mpr hcopy
  rw [nodeTurn_eq_visit hlen (by omega), visitNode_target hin htarget, if_pos hvalid]
  simp only [hname]
  exact ⟨name, rfl⟩

/-- A name that goes past the block is copied from outside. -/
theorem nodeTurn_copy (hlen : b.buf.length = a.mtd.erasesize.toNat)
    (hin : NodeInside a b.buf w.blockOffs.toNat)
    (htarget : IsTarget a b.buf w.blockOffs.toNat) (hvalid : w.valid = true)
    (hcopy : ¬CopyInside a b.buf w.blockOffs.toNat) :
    nodeTurn a b w = .inl (.inl (.error .outOfBounds)) := by
  have hle := htarget.le hin
  rw [nodeTurn_eq_visit hlen (by omega), visitNode_target hin htarget, if_pos hvalid]
  cases hname : copyName a b.buf w.blockOffs.toNat
      (nsizeAt a.endian b.buf w.blockOffs.toNat) with
  | ok name => exact absurd ((copyName_iff hle).mp ⟨name, hname⟩) hcopy
  | error fault =>
    cases fault
    simp only [hname]
    rfl

/-- The walk goes on exactly by its steps. -/
private theorem nodeTurn_inr_iff (hlen : b.buf.length = a.mtd.erasesize.toNat) :
    nodeTurn a b w = .inr w' ↔ WalkStep a b.buf w w' := by
  by_cases h : w.blockOffs.toNat < b.buf.length ∧ NodeInside a b.buf w.blockOffs.toNat ∧
    ¬IsTarget a b.buf w.blockOffs.toNat
  -- the node is in the block and not the one searched for: the walk goes on behind it
  · obtain ⟨w'', hvisit, hoffs, hvalid⟩ := visitNode_pass h.2.1 h.2.2
    rw [nodeTurn_eq_visit hlen h.1, hvisit, WalkStep, nextNode, if_pos h, ← hoffs, ← hvalid]
    simp only [Sum.inr.injEq, Option.some.injEq, UInt32.toNat_inj]
    constructor
    · rintro rfl
      exact ⟨rfl, rfl⟩
    · rintro ⟨hoffs', hvalid'⟩
      cases w'
      cases w''
      simp_all
  · rw [WalkStep, nextNode, if_neg h]
    constructor
    -- where the walk does not step, the loop is left or the parse ends
    · intro hturn
      exfalso
      by_cases hlt : w.blockOffs.toNat < b.buf.length
      swap
      · rw [nodeTurn_leave hlen (by omega)] at hturn
        cases hturn
      by_cases hin : NodeInside a b.buf w.blockOffs.toNat
      swap
      · rw [nodeTurn_outside hlen hlt hin] at hturn
        cases hturn
      by_cases htarget : IsTarget a b.buf w.blockOffs.toNat
      swap
      · exact h ⟨hlt, hin, htarget⟩
      cases hvalid : w.valid with
      | false =>
        rw [nodeTurn_invalid hlen hlt hin htarget hvalid] at hturn
        cases hturn
      | true =>
        by_cases hcopy : CopyInside a b.buf w.blockOffs.toNat
        · obtain ⟨name, hfound⟩ := nodeTurn_found hlen hin htarget hvalid hcopy
          rw [hfound] at hturn
          cases hturn
        · rw [nodeTurn_copy hlen hin htarget hvalid hcopy] at hturn
          cases hturn
    · rintro ⟨hnone, -⟩
      cases hnone

/-- A turn moves by the length of the node. -/
private theorem nodeTurn_next (hlen : b.buf.length = a.mtd.erasesize.toNat) (w : Walk) :
    (nodeTurn a b w).getRight?.map (fun w => w.blockOffs.toNat) =
      nextNode a b.buf w.blockOffs.toNat := by
  by_cases h : w.blockOffs.toNat < b.buf.length ∧ NodeInside a b.buf w.blockOffs.toNat ∧
    ¬IsTarget a b.buf w.blockOffs.toNat
  · obtain ⟨w', hvisit, hoffs, -⟩ := visitNode_pass h.2.1 h.2.2
    rw [nodeTurn_eq_visit hlen h.1, hvisit, nextNode, if_pos h, ← hoffs]
    rfl
  · cases hturn : nodeTurn a b w with
    | inl x =>
      rw [nextNode, if_neg h]
      rfl
    | inr w' =>
      have hstep := (nodeTurn_inr_iff hlen).mp hturn
      rw [hstep.1]
      rfl

/-- The walk is what the inner loop does. -/
private theorem reaches_nodeTurn_iff (hlen : b.buf.length = a.mtd.erasesize.toNat) :
    Loop.Reaches (nodeTurn a b) w w' ↔ Relation.ReflTransGen (WalkStep a b.buf) w w' := by
  have hrel : (fun w w' => nodeTurn a b w = .inr w') = WalkStep a b.buf := by
    funext w w'
    exact propext (nodeTurn_inr_iff hlen)
  rw [Loop.Reaches, hrel]

/-- Whether the walk ends depends on the lengths of the nodes only. -/
private theorem terminates_nodeTurn_iff (hlen : b.buf.length = a.mtd.erasesize.toNat) (valid : Bool)
    :
    Loop.Terminates (nodeTurn a b) { blockOffs := 0, valid := valid } ↔
      Loop.Acyclic (nextNode a b.buf) 0 := by
  have hbound : ∀ w w' : Walk, nodeTurn a b w = .inr w' → w.blockOffs.toNat < 2 ^ 32 :=
    fun w _ _ => w.blockOffs.toNat_lt
  exact Loop.terminates_iff_acyclic (nodeTurn_next hlen) hbound

variable {c c' : Cursor} {buf : List UInt8}

/-- Behind the last block the search ends without a file. -/
theorem blockTurn_end (h : a.stop ≤ c.offs) :
    blockTurn a c = .inl (.inl (.ok { reads := c.reads, res := .error .enoent })) := by
  rw [blockTurn, if_neg (by omega)]

/-- A block without the magic is skipped. -/
theorem blockTurn_skip (h : Skips a c) :
    blockTurn a c = .inl (.inr (nextBlock a c (c.reads + 1) c.valid)) := by
  obtain ⟨hlt, hmagic⟩ := h
  rw [blockTurn, if_pos hlt]
  cases hread : mtdRead a.mtd c.reads c.offs 2 with
  | error rc => rfl
  | ok magic =>
    simp only
    rw [if_pos]
    by_contra hne
    push Not at hne
    exact hmagic ⟨magic, hread, hne.1, hne.2⟩

/-- A block that was read is walked through. -/
theorem blockTurn_open (h : Opens a c buf) :
    blockTurn a c =
      .inr ({ cursor := c, buf := buf }, { blockOffs := 0, valid := c.valid }) := by
  obtain ⟨hlt, ⟨magic, hmagic, hlen, hfield⟩, hread, hlength⟩ := h
  rw [blockTurn, if_pos hlt, hmagic]
  simp only
  rw [if_neg (by simp [hlen, hfield]), hread]
  simp only
  rw [if_neg (by simp [hlength])]

/-- A block with the magic that cannot be read ends the search. -/
theorem blockTurn_refuse (hlt : c.offs < a.stop) (hmagic : HasMagic a c)
    (h : ∀ buf, ¬Opens a c buf) :
    ∃ rc, blockTurn a c = .inl (.inl (.ok { reads := c.reads + 2, res := .error rc })) := by
  have hhas := hmagic
  obtain ⟨magic, hmagic, hlen, hfield⟩ := hmagic
  rw [blockTurn, if_pos hlt, hmagic]
  simp only
  rw [if_neg (by simp [hlen, hfield])]
  cases hread : mtdRead a.mtd (c.reads + 1) c.offs a.mtd.erasesize.toNat with
  | error rc => exact ⟨rc, rfl⟩
  | ok buf =>
    -- a short read is an error of the search
    by_cases hlength : buf.length = a.mtd.erasesize.toNat
    · exact absurd ⟨hlt, hhas, hread, hlength⟩ (h buf)
    · simp only
      rw [if_pos hlength]
      exact ⟨_, rfl⟩

/-! ### The search -/

/-- The states of a walk are states of the search. -/
theorem Walks.reaches (hopen : Opens a c buf) (h : Walks a buf c.valid w) :
    Loop.Reaches (Loop.nest (blockTurn a) (nodeTurn a)) (.inl c)
      (.inr ({ cursor := c, buf := buf }, w)) := by
  have hwalk : Loop.Reaches (nodeTurn a { cursor := c, buf := buf })
      { blockOffs := 0, valid := c.valid } w := (reaches_nodeTurn_iff hopen.length).mpr h
  exact .head (Loop.nest_inl_enter (blockTurn_open hopen)) hwalk.nest

/-- A block that is passed takes a step at least. -/
theorem Passes.transGen (h : Passes a c c') :
    Relation.TransGen (fun s s' => Loop.nest (blockTurn a) (nodeTurn a) s = .inr s')
      (.inl c) (.inl c') := by
  rcases h with ⟨hskip, rfl⟩ | ⟨buf, w, hopen, hwalk, hend, rfl⟩
  · exact .single (Loop.nest_inl_next (blockTurn_skip hskip))
  · exact .tail' (hwalk.reaches hopen) (Loop.nest_inr_leave (nodeTurn_leave hopen.length hend))

/-- The blocks that are scanned are states of the search. -/
theorem Scans.reaches (h : Scans a c c') :
    Loop.Reaches (Loop.nest (blockTurn a) (nodeTurn a)) (.inl c) (.inl c') := by
  induction h with
  | refl => exact .refl
  | tail _ hlast ih => exact Relation.ReflTransGen.trans ih (Passes.transGen hlast).to_reflTransGen

/-- A block that is passed is left at its end. -/
theorem Passes.offs (h : Passes a c c') : c'.offs = c.offs + a.mtd.erasesize.toNat := by
  rcases h with ⟨-, rfl⟩ | ⟨buf, w, -, -, -, rfl⟩
  · rfl
  · rfl

/-- The scan does not go back. -/
theorem Scans.le (h : Scans a c c') : c.offs ≤ c'.offs := by
  induction h with
  | refl => exact le_rfl
  | tail _ hlast ih =>
    have hoffs := hlast.offs
    omega

/-- A block is opened with one content. -/
theorem Opens.unique {buf' : List UInt8} (h : Opens a c buf) (h' : Opens a c buf') :
    buf = buf' :=
  Except.ok.inj (h.read.symm.trans h'.read)

/-- The walk through a block is deterministic. -/
private theorem walkStep_rightUnique (buf : List UInt8) : Relator.RightUnique (WalkStep a buf) := by
  intro w w₁ w₂ h₁ h₂
  have hoffs := Option.some.inj (h₁.1.symm.trans h₂.1)
  have hvalid := h₁.2.trans h₂.2.symm
  cases w₁
  cases w₂
  rw [UInt32.toNat_inj] at hoffs
  simp_all

/-- The walk does not go past a node that is searched for. -/
private theorem not_walkStep (h : w.blockOffs.toNat < buf.length → IsTarget a buf w.blockOffs.toNat)
    (w' : Walk) : ¬WalkStep a buf w w' := by
  rintro ⟨hnext, -⟩
  rw [nextNode] at hnext
  split at hnext
  · next hpass => exact hpass.2.2 (h hpass.1)
  · cases hnext

/-- The way through the blocks is deterministic. -/
private theorem passes_rightUnique : Relator.RightUnique (Passes a) := by
  intro c c₁ c₂ h₁ h₂
  rcases h₁ with ⟨hskip, rfl⟩ | ⟨buf, w, hopen, hwalk, hend, rfl⟩
  · rcases h₂ with ⟨-, rfl⟩ | ⟨buf, w, hopen, -⟩
    · rfl
    · exact absurd hopen.magic hskip.2
  · rcases h₂ with ⟨hskip, -⟩ | ⟨buf', w', hopen', hwalk', hend', rfl⟩
    · exact absurd hopen.magic hskip.2
    · obtain rfl := hopen.unique hopen'
      have hsame := Loop.unique_of_ends (walkStep_rightUnique buf) hwalk hwalk'
        (not_walkStep fun hlt => by omega) (not_walkStep fun hlt => by omega)
      rw [hsame]

/-- The search comes to an offset once. -/
private theorem scans_unique {s : Cursor} (hes : a.mtd.erasesize ≠ 0) (h : Scans a s c)
    (h' : Scans a s c') (hoffs : c.offs = c'.offs) : c = c' := by
  have hpos : 0 < a.mtd.erasesize.toNat := by
    rw [Nat.pos_iff_ne_zero]
    exact fun hzero => hes (UInt32.toNat_inj.mp hzero)
  -- the scan only moves up, so two states at one offset are equal
  have heq : ∀ {d d' : Cursor}, Scans a d d' → d.offs = d'.offs → d = d' := by
    intro d d' hd hdoffs
    rcases Relation.ReflTransGen.cases_head hd with heq | ⟨d'', hpass, hrest⟩
    · exact heq
    · have hnext := hpass.offs
      have hle := Scans.le hrest
      omega
  rcases Relation.ReflTransGen.total_of_right_unique passes_rightUnique h h' with hc | hc
  · exact heq hc hoffs
  · exact (heq hc hoffs.symm).symm

/-- Without an erase size the search stays at the first block. -/
private theorem not_terminates_of_erasesize (hes : a.mtd.erasesize = 0) (hlt : c.offs < a.stop) :
    ¬Loop.Terminates (Loop.nest (blockTurn a) (nodeTurn a)) (.inl c) := by
  refine Loop.not_terminates_of_invariant (P := fun s => ∃ c, s = .inl c ∧ c.offs < a.stop)
    ?_ ⟨c, rfl, hlt⟩
  rintro s ⟨c, rfl, hlt⟩
  -- with an erase size of 0 every block is passed, and the next one is the same
  obtain ⟨c', hpass⟩ : ∃ c', Passes a c c' := by
    by_cases hmagic : HasMagic a c
    · have hopen : Opens a c [] := by
        refine ⟨hlt, hmagic, ?_, by rw [hes]; rfl⟩
        obtain ⟨magic, hread, -⟩ := hmagic
        obtain ⟨hin, -⟩ := mtdRead_ok hread
        rw [mtdRead, hes, if_pos ⟨hin, Nat.zero_le _⟩]
        rfl
      exact ⟨_, .inr ⟨[], _, hopen, .refl, Nat.zero_le _, rfl⟩⟩
    · exact ⟨_, .inl ⟨⟨hlt, hmagic⟩, rfl⟩⟩
  refine ⟨_, hpass.transGen, c', rfl, ?_⟩
  rw [hpass.offs, hes]
  exact hlt

/-! ### The condition -/

variable {offs reads : Nat}

/-- A search that finds the file comes to no node that leads outside. -/
theorem scansSafely_of_finds (h : FindsSafely a offs reads) : ScansSafely a offs reads := by
  obtain ⟨fuel, r, hrun, hfile⟩ := h
  have hadvances : a.mtd.erasesize = 0 → a.stop ≤ offs := by
    intro hes
    by_contra hlt
    exact not_terminates_of_erasesize (c := start offs reads) hes (Nat.lt_of_not_le hlt)
      ⟨fuel, _, hrun⟩
  -- the run that is given passes every state the scan comes to, so it also runs from there
  have hnode : ∀ {c buf w}, Scans a (start offs reads) c → Opens a c buf →
      Walks a buf c.valid w → ∃ fuel, Loop.run (Loop.nest (blockTurn a) (nodeTurn a)) fuel
        (.inr ({ cursor := c, buf := buf }, w)) = some (.ok r) := by
    intro c buf w hscan hopen hwalk
    exact Loop.Reaches.exists_run
      (Relation.ReflTransGen.trans hscan.reaches (hwalk.reaches hopen)) hrun
  refine ⟨hadvances, ?_, ?_, ?_⟩
  -- a node out of the block would end that run in a fault
  · intro c buf w hscan hopen hwalk hlt
    obtain ⟨fuel', hrun'⟩ := hnode hscan hopen hwalk
    by_contra hout
    have hturn := nodeTurn_outside (b := { cursor := c, buf := buf }) hopen.length hlt hout
    have hret := Loop.eq_of_run_inl (Loop.nest_inr_end hturn) hrun'
    cases hret
  · intro c buf hscan hopen
    obtain ⟨fuel', hrun'⟩ := hnode hscan hopen .refl
    exact (terminates_nodeTurn_iff hopen.length c.valid).mp
      (Loop.terminates_of_nest ⟨fuel', _, hrun'⟩)
  -- at the entry searched for, the run ends in a fault or with the file
  · intro c buf w hscan hopen hwalk hin htarget hvalid
    obtain ⟨fuel', hrun'⟩ := hnode hscan hopen hwalk
    by_cases hcopy : CopyInside a buf w.blockOffs.toNat
    swap
    · have hturn := nodeTurn_copy (b := { cursor := c, buf := buf }) hopen.length hin htarget
        hvalid hcopy
      have hret := Loop.eq_of_run_inl (Loop.nest_inr_end hturn) hrun'
      cases hret
    obtain ⟨name, hturn⟩ := nodeTurn_found (b := { cursor := c, buf := buf }) hopen.length
      hin htarget hvalid hcopy
    have hret := Loop.eq_of_run_inl (Loop.nest_inr_end hturn) hrun'
    rw [Except.ok.injEq] at hret
    obtain ⟨c', buf', w', hscan', hoffs, hopen', hwalk', htarget', hsize, hmark⟩ :=
      hfile _ (by rw [← hret])
    -- the search comes to one block at this offset, and ends there at one entry
    have hes : a.mtd.erasesize ≠ 0 := by
      intro hzero
      have hle := hscan.le
      have hlt := hopen.lt
      have hstop := hadvances hzero
      rw [start] at hle
      simp only at hle
      omega
    obtain rfl := scans_unique hes hscan' hscan hoffs
    obtain rfl := hopen.unique hopen'
    obtain rfl := Loop.unique_of_ends (walkStep_rightUnique buf) hwalk hwalk'
      (not_walkStep fun _ => htarget) (not_walkStep fun _ => htarget')
    exact ⟨hcopy, hsize, hmark⟩

/-- A search that comes to no such node finds the file. -/
theorem finds_of_scansSafely (h : ScansSafely a offs reads) : FindsSafely a offs reads := by
  obtain ⟨hadvances, hinside, hacyclic, hentry⟩ := h
  -- a run from here ends without a fault, and with a file only where there is one
  let Ends (s : Cursor ⊕ Block × Walk) : Prop :=
    ∃ fuel r, Loop.run (Loop.nest (blockTurn a) (nodeTurn a)) fuel s = some (.ok r) ∧
      ∀ file, r.res = .ok file → Holds a (start offs reads) file.offs
  have hback : ∀ {s s'}, Loop.Reaches (Loop.nest (blockTurn a) (nodeTurn a)) s s' → Ends s' →
      Ends s := by
    rintro s s' hreach ⟨fuel, r, hrun, hr⟩
    obtain ⟨fuel', hrun'⟩ := hreach.exists_run_of hrun
    exact ⟨fuel', r, hrun', hr⟩
  have herror : ∀ {s : Cursor ⊕ Block × Walk} {reads : Nat} {rc : Errno},
      Loop.nest (blockTurn a) (nodeTurn a) s =
        .inl (.ok { reads := reads, res := .error rc }) → Ends s := by
    intro s reads rc hturn
    exact ⟨1, _, by rw [Loop.run, hturn], fun file hfile => by cases hfile⟩
  -- by induction on the blocks that are left
  have hall : ∀ k c, a.stop - c.offs = k → Scans a (start offs reads) c → Ends (.inl c) := by
    intro k
    induction k using Nat.strong_induction_on with
    | _ k ih =>
      intro c hk hscan
      by_cases hstop : a.stop ≤ c.offs
      · exact herror (Loop.nest_inl_end (blockTurn_end hstop))
      have hpass : ∀ {c'}, Passes a c c' → Ends (.inl c') := by
        intro c' hpass
        have hoffs := hpass.offs
        have hes : 0 < a.mtd.erasesize.toNat := by
          rw [Nat.pos_iff_ne_zero]
          intro hzero
          have hle := hscan.le
          have hempty := hadvances (UInt32.toNat_inj.mp hzero)
          rw [start] at hle
          simp only at hle
          omega
        exact ih _ (by omega) c' rfl (hscan.tail hpass)
      by_cases hmagic : HasMagic a c
      swap
      · have hskip : Passes a c (nextBlock a c (c.reads + 1) c.valid) :=
          .inl ⟨⟨by omega, hmagic⟩, rfl⟩
        exact hback hskip.transGen.to_reflTransGen (hpass hskip)
      by_cases hopens : ∃ buf, Opens a c buf
      swap
      · obtain ⟨rc, hturn⟩ := blockTurn_refuse (by omega) hmagic fun buf hopen => hopens ⟨buf, hopen⟩
        exact herror (Loop.nest_inl_end hturn)
      obtain ⟨buf, hopen⟩ := hopens
      -- the walk through the block ends, at its end or at the file
      obtain ⟨fuel, x, hrun⟩ :=
        (terminates_nodeTurn_iff (b := { cursor := c, buf := buf }) hopen.length c.valid).mpr
          (hacyclic c buf hscan hopen)
      obtain ⟨w, hreach, hturn⟩ := Loop.reaches_of_run hrun
      have hwalk : Walks a buf c.valid w := (reaches_nodeTurn_iff hopen.length).mp hreach
      by_cases hlt : w.blockOffs.toNat < buf.length
      swap
      · have hleave : Passes a c (nextBlock a c (c.reads + 2) w.valid) :=
          .inr ⟨buf, w, hopen, hwalk, by omega, rfl⟩
        exact hback hleave.transGen.to_reflTransGen (hpass hleave)
      have hin := hinside c buf w hscan hopen hwalk hlt
      refine hback (hwalk.reaches hopen) ?_
      by_cases htarget : IsTarget a buf w.blockOffs.toNat
      swap
      · obtain ⟨w', hvisit, -⟩ := visitNode_pass (b := { cursor := c, buf := buf }) hin htarget
        rw [nodeTurn_eq_visit hopen.length hlt, hvisit] at hturn
        cases hturn
      cases hvalid : w.valid with
      | false =>
        exact herror (Loop.nest_inr_end (nodeTurn_invalid hopen.length hlt hin htarget hvalid))
      | true =>
        obtain ⟨hcopy, hsize, hmark⟩ := hentry c buf w hscan hopen hwalk hin htarget hvalid
        obtain ⟨name, hfound⟩ := nodeTurn_found (b := { cursor := c, buf := buf }) hopen.length
          hin htarget hvalid hcopy
        refine ⟨1, _, by rw [Loop.run, Loop.nest_inr_end hfound], fun file hfile => ?_⟩
        obtain rfl := Except.ok.inj hfile
        exact ⟨c, buf, w, hscan, rfl, hopen, hwalk, htarget, hsize, hmark⟩
  exact hall _ (start offs reads) rfl .refl

/-- The search for a file is safe exactly if the blocks that it comes to are so. -/
theorem findsSafely_iff_scansSafely (a : Search) (offs reads : Nat) :
    FindsSafely a offs reads ↔ ScansSafely a offs reads :=
  ⟨scansSafely_of_finds, finds_of_scansSafely⟩

/-! ### A block that ends in a header -/

/-- A block of four bytes, the first ones of a directory entry. -/
def headerOnly : Search where
  endian := .little
  mtd :=
    { size := 4
      erasesize := 4
      flash := fun i => [0x85, 0x19, 0x01, 0xe0].getD i 0xff
      outcome := fun _ _ => .ok 4 }
  name := [0x63, 0x66, 0x65, 0x72, 0x61, 0x6d]
  stop := 4
  outName := false
  memory := true

/-- The inode of the entry is read behind the block. -/
theorem headerOnly_not_safe : ¬FindsSafely headerOnly 0 0 := by
  intro h
  have hopen : Opens headerOnly (start 0 0) [0x85, 0x19, 0x01, 0xe0] :=
    ⟨by decide, ⟨[0x85, 0x19], by rfl, rfl, by decide⟩, by rfl, rfl⟩
  have hin := (scansSafely_of_finds h).inside (start 0 0) _ { blockOffs := 0, valid := false }
    .refl hopen .refl (by decide)
  exact absurd hin (by decide)

end HandsomeMod.Native.BcmWfi
