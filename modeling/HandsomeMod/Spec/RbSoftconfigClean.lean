import HandsomeMod.ForStd.Run
import HandsomeMod.Native.RbSoftconfig

/-!
# A clean `soft_config`

A checksum that is not null tells that the buffer is what the flash holds. It does so as long as no
flush finds a checksum that another task has set in the meantime, and no garbage is read back.

A commit alone leaves the buffer clean unless the checksum that it computes is null itself.
-/

namespace HandsomeMod.Native.RbSoftconfig

open ForStd

/-! ### The property -/

/-- The checksum of an image is that of the image with the checksum null. -/
def Valid (k : Config) (m : Mem) : Prop :=
  getCrc k.endian m = crc32 (clrCrc k.endian m) k.buflen

variable {τ : Type}

/-- The flash holds the buffer, which is valid. -/
def Synced (k : Config) (s : St τ) : Prop :=
  (∀ a < k.buflen, s.flash a = s.buf a) ∧ Valid k s.flash

/-- Behind `rb_softconfig_init`. -/
def Init (k : Config) (s : St τ) : Prop := (∀ t, s.pc t = .idle) ∧ Synced k s

/-- What a step needs: a flush finds the checksum null, and what is read back is valid. -/
def Good (k : Config) (s : St τ) : Event τ → Prop
  | .flush _ _ _ => getCrc k.endian s.buf = 0
  | .reread _ _ => Valid k s.flash
  | _ => True

variable [DecidableEq τ]

/-- A step of any task. -/
def Next (k : Config) (s s' : St τ) : Prop := ∃ e, step k s e = some s'

/-- A step that has what it needs. -/
def GoodNext (k : Config) (s s' : St τ) : Prop := ∃ e, Good k s e ∧ step k s e = some s'

/-! ### Checksums -/

/-- The CRC that was set is read. -/
theorem getCrc_setCrc (e : Endian) (m : Mem) {crc : Nat} (h : crc < 2 ^ 32) :
    getCrc e (setCrc e m crc) = crc := by
  rw [← Endian.load_store e (n := 4) h]
  apply Endian.load_congr
  intro i hi
  rw [Endian.load_store e (n := 4) h, setCrc, putU32, if_pos (by omega), Nat.add_sub_cancel_left]

/-- Clearing the CRC forgets it. -/
private theorem clrCrc_setCrc (e : Endian) (m : Mem) (crc : Nat) :
    clrCrc e (setCrc e m crc) = clrCrc e m := by
  funext a
  simp only [clrCrc, setCrc, putU32]
  split
  · rfl
  · rfl

/-- A checksum that is null is not changed. -/
private theorem clrCrc_of_null {e : Endian} {m : Mem} (h : getCrc e m = 0) : clrCrc e m = m := by
  funext a
  rw [clrCrc, setCrc, putU32]
  split
  · rename_i ha
    rw [← h, getCrc, Endian.store_load e _ (by omega), Nat.add_sub_cancel' ha.1]
  · rfl

/-- A CRC has 32 bits. -/
theorem crc32_lt (m : Mem) (len : Nat) : crc32 m len < 2 ^ 32 := UInt32.toNat_lt _

/-- The checksum that a flush sets is right, as it was null. -/
theorem valid_setCrc {k : Config} {m : Mem} (h : getCrc k.endian m = 0) :
    Valid k (setCrc k.endian m (crc32 m k.buflen)) := by
  rw [Valid, getCrc_setCrc _ _ (crc32_lt m k.buflen), clrCrc_setCrc, clrCrc_of_null h]

/-! ### The invariant -/

/-- The buffer is dirty or synced, unless a task is at `mtdfail`. -/
def Inv (k : Config) (s : St τ) : Prop :=
  (∃ t, s.pc t = .mtdfail) ∨ getCrc k.endian s.buf = 0 ∨ Synced k s

/-- A step moves its task. -/
theorem pc_goto (s : St τ) (t : τ) (pc : Pc) : (s.goto t pc).pc t = pc := Function.update_self _ _ _

/-- A step moves no other task. -/
private theorem pc_goto_of_ne (s : St τ) {t u : τ} (pc : Pc) (h : u ≠ t) :
    (s.goto t pc).pc u = s.pc u :=
  Function.update_of_ne h _ _

/-- A cleared CRC is zero. -/
private theorem getCrc_clrCrc (e : Endian) (m : Mem) : getCrc e (clrCrc e m) = 0 :=
  getCrc_setCrc e m (by decide)

variable {k : Config} {s s' : St τ}

/-- A task that goes on from elsewhere leaves those at `mtdfail` there. -/
theorem Inv.goto (h : Inv k s) {t : τ} {pc : Pc} (hpc : s.pc t ≠ .mtdfail) :
    Inv k (s.goto t pc) := by
  rcases h with ⟨u, hu⟩ | h | h
  · left
    refine ⟨u, ?_⟩
    rw [pc_goto_of_ne s pc (by rintro rfl; exact hpc hu), hu]
  · exact .inr (.inl h)
  · exact .inr (.inr h)

/-- Reading the flash back keeps the invariant if its image is valid. -/
private theorem reread_inv (t : τ) (read : Access) (hgood : Valid k s.flash) :
    Inv k (s.reread t read) := by
  cases read with
  | done => exact .inr (.inr ⟨fun _ _ => rfl, hgood⟩)
  | failed left => exact .inl ⟨t, pc_goto _ t _⟩

/-- A flush keeps the invariant, whatever succeeds, if the CRC is zero. -/
private theorem flush_inv (t : τ) (erase write : Access) (hgood : getCrc k.endian s.buf = 0) :
    Inv k (s.flush k t erase write) := by
  cases erase with
  | failed left => exact .inl ⟨t, pc_goto _ t _⟩
  | done =>
    cases write with
    | failed left => exact .inl ⟨t, pc_goto _ t _⟩
    | done => exact .inr (.inr ⟨fun _ _ => rfl, valid_setCrc hgood⟩)

/-- The first part of a commit changes nothing, or its task waits for the lock. -/
private theorem commit_cases {t : τ} {buf : List UInt8} {found : Bool}
    (hstep : step k s (.commit t buf found) = some s') :
    s' = s ∨ s.pc t = .idle ∧ ∃ flush, s' = s.goto t (.locking flush) := by
  simp only [step] at hstep
  split at hstep
  -- the task is busy
  · cases hstep
  · rename_i hpc
    split at hstep
    · exact .inl (Option.some.inj hstep).symm
    · split at hstep
      · exact .inl (Option.some.inj hstep).symm
      · split at hstep
        · exact .inl (Option.some.inj hstep).symm
        · split at hstep
          · exact .inr ⟨not_not.mp hpc, _, (Option.some.inj hstep).symm⟩
          · exact .inl (Option.some.inj hstep).symm

/-- Every step but the excluded ones keeps the invariant. -/
theorem step_inv {e : Event τ} (h : Inv k s) (hgood : Good k s e) (hstep : step k s e = some s') :
    Inv k s' := by
  cases e with
  -- a store clears the CRC, so the content is pending
  | store t a capable buf =>
    simp only [step] at hstep
    split at hstep
    · cases hstep
    · split at hstep
      · obtain rfl := Option.some.inj hstep
        exact h
      · obtain rfl := Option.some.inj hstep
        exact .inr (.inl (getCrc_clrCrc _ _))
  -- a commit that goes on takes the lock first, which writes nothing
  | commit t buf found =>
    rcases commit_cases hstep with rfl | ⟨hidle, flush, rfl⟩
    · exact h
    · refine h.goto ?_
      rw [hidle]
      decide
  | reread t read =>
    rw [step] at hstep
    split at hstep
    · obtain rfl := Option.some.inj hstep
      exact reread_inv t read hgood
    · cases hstep
  | flush t erase write =>
    rw [step] at hstep
    split at hstep
    · obtain rfl := Option.some.inj hstep
      exact flush_inv t erase write hgood
    · cases hstep
  | clear t =>
    rw [step] at hstep
    split at hstep
    · obtain rfl := Option.some.inj hstep
      exact .inr (.inl (getCrc_clrCrc _ _))
    · cases hstep

/-- If flushes find the checksum null and only valid images are read back, a checksum that is not
    null tells that the flash holds the buffer, unless a task is at `mtdfail`. -/
theorem clean_synced (h : Reachable (Init k) (GoodNext k) s) (hquiet : ∀ t, s.pc t ≠ .mtdfail)
    (hclean : getCrc k.endian s.buf ≠ 0) : Synced k s := by
  have hinv : Inv k s := by
    refine h.invariant (fun s hinit => .inr (.inr hinit.2)) ?_
    rintro s s' hinv ⟨e, hgood, hstep⟩
    exact step_inv hinv hgood hstep
  rcases hinv with ⟨t, ht⟩ | hnull | hsynced
  · exact absurd ht (hquiet t)
  · exact absurd hnull hclean
  · exact hsynced

/-! ### A flush that succeeds, and one that fails -/

/-- A partition of four words, the last one the payload of the tags. -/
def sampleConfig : Config where
  endian := .little
  soc := ⟨false, false, false, false, false, false, false, false⟩
  hasWriteSupport := true
  buflen := 16
  pldOfs _ := 12
  pldLen _ := 4

/-- The magic, no checksum, and a tag. -/
def sampleWords : Mem := fun a =>
  [0x53, 0x6f, 0x66, 0x74, 0, 0, 0, 0, 0x01, 0, 0x04, 0, 0, 0, 0, 0].getD a 0

def sampleStart (τ : Type) : St τ :=
  let image := setCrc .little sampleWords (crc32 sampleWords 16)
  ⟨image, image, fun _ => .idle⟩

omit [DecidableEq τ] in

/-- The start of the examples is an initial state. -/
theorem sampleStart_init : Init sampleConfig (sampleStart τ) :=
  ⟨fun _ => rfl, fun _ _ => rfl, valid_setCrc (by decide)⟩

/-- A store while the other task waits to commit the one before it. The flush of that task fails, and
    a commit writes what was stored last. -/
def committed : List (Event Bool) :=
  [.store false .uartSpeed true (ascii "9600\n"), .commit true (ascii "1\n") true,
    .store false .uartSpeed true (ascii "115200\n"), .flush true .done (.failed fun _ => 0xff),
    .clear true, .commit false (ascii "1\n") true, .flush false .done .done]

/-- Stores and commits of two tasks. -/
theorem clean_synced_sample :
    ∃ s, committed.foldlM (step sampleConfig) (sampleStart Bool) = some s ∧
      Synced sampleConfig s := by
  have h : Reachable (Init sampleConfig) (GoodNext sampleConfig) (sampleStart Bool) :=
    Reachable.start sampleStart_init
  have h := h.next ⟨.store false .uartSpeed true (ascii "9600\n"), trivial, rfl⟩
  -- the second task writes 1 to `commit`, and the first one stores between its locks
  have h := h.next ⟨.commit true (ascii "1\n") true, trivial, rfl⟩
  have h := h.next ⟨.store false .uartSpeed true (ascii "115200\n"), trivial, rfl⟩
  have h := h.next ⟨.flush true .done (.failed fun _ => 0xff), rfl, rfl⟩
  have h := h.next ⟨.clear true, trivial, rfl⟩
  have h := h.next ⟨.commit false (ascii "1\n") true, trivial, rfl⟩
  have h := h.next ⟨.flush false .done .done, rfl, rfl⟩
  refine ⟨_, rfl, clean_synced h ?_ ?_⟩
  · intro t
    decide +revert
  · change getCrc .little (setCrc .little _ (crc32 _ 16)) ≠ 0
    rw [getCrc_setCrc _ _ (crc32_lt _ _)]
    decide +kernel

/-- A store whose flush erases the flash and fails to write it, and then is discarded. -/
def discarded : List (Event Unit) :=
  [.store () .uartSpeed true (ascii "9600\n"), .commit () (ascii "1\n") true,
    .flush () .done (.failed fun _ => 0xff), .clear (), .commit () (ascii "0\n") true,
    .reread () .done]

/-- Steps lead from reachable to reachable states. -/
theorem reachable_foldlM {s s' : St τ} {l : List (Event τ)} (h : Reachable (Init k) (Next k) s)
    (hrun : l.foldlM (step k) s = some s') : Reachable (Init k) (Next k) s' := by
  induction l generalizing s with
  | nil =>
    obtain rfl := Option.some.inj hrun
    exact h
  | cons e l ih =>
    rw [List.foldlM_cons, Option.bind_eq_bind, Option.bind_eq_some_iff] at hrun
    obtain ⟨s₁, hstep, hrun⟩ := hrun
    exact ih (h.next ⟨e, hstep⟩) hrun

/-- The erased flash reads clean, with no task in a commit. -/
theorem discarded_not_synced : ∃ s : St Unit, Reachable (Init sampleConfig) (Next sampleConfig) s ∧
    (∀ t, s.pc t = .idle) ∧ getCrc .little s.buf ≠ 0 ∧ ¬Synced sampleConfig s := by
  have hrun : ∃ s, discarded.foldlM (step sampleConfig) (sampleStart Unit) = some s ∧
      (∀ t, s.pc t = .idle) ∧ s.buf = (fun _ => 0xff) ∧ s.flash = fun _ => 0xff :=
    ⟨_, rfl, by decide +revert, rfl, rfl⟩
  obtain ⟨s, hrun, hidle, hbuf, hflash⟩ := hrun
  refine ⟨s, reachable_foldlM (Reachable.start sampleStart_init) hrun, hidle, ?_, ?_⟩
  · rw [hbuf]
    decide
  · rintro ⟨-, hvalid⟩
    rw [Valid, hflash] at hvalid
    exact absurd hvalid (by decide +kernel)

/-! ### A commit alone -/

/-- The buffer is reported to be clean, and the next commit does nothing, whatever its input is. -/
structure Clean (k : Config) (s : St τ) : Prop where
  shown : commitShow k s = "clean\n"
  noop : ∀ u buf found read erase write, s.pc u = .idle →
    commitStore k s u buf found read erase write = some (s, false)

/-- A checksum that is not null is what it takes. -/
theorem clean_iff (hsupport : k.hasWriteSupport = true) : Clean k s ↔ getCrc k.endian s.buf ≠ 0 := by
  constructor
  · intro h hnull
    have hshown := h.shown
    rw [commitShow, if_neg (not_not.mpr hnull)] at hshown
    exact absurd hshown (by decide)
  · intro hcrc
    refine ⟨if_pos hcrc, fun u buf found read erase write hidle => ?_⟩
    -- a CRC that is not null makes the commit a no-op
    have hstep : step k s (.commit u buf found) = some s := by
      simp only [step]
      rw [if_neg (not_not.mpr hidle), if_neg (not_not.mpr hsupport), if_pos hcrc]
    rw [commitStore, hstep]
    simp only [Option.bind_eq_bind, Option.bind_some, hidle]

/-- A commit with a true value whose erase and write succeed leaves the buffer clean exactly if it
    has been so, or its checksum is not null. -/
theorem commitStore_clean_iff (k : Config) (s : St τ) (t : τ) (buf : List UInt8) (read : Access)
    (hsupport : k.hasWriteSupport = true) (hidle : s.pc t = .idle)
    (htrue : kstrtobool buf = some true) :
    ∃ s' wrote, commitStore k s t buf true read .done .done = some (s', wrote) ∧
      (Clean k s' ↔ getCrc k.endian s.buf ≠ 0 ∨ crc32 s.buf k.buflen ≠ 0) := by
  by_cases hcrc : getCrc k.endian s.buf = 0
  · have hcommit : step k s (.commit t buf true) = some (s.goto t (.locking true)) := by
      simp only [step, htrue]
      rw [if_neg (not_not.mpr hidle), if_neg (not_not.mpr hsupport), if_neg (not_not.mpr hcrc),
        if_pos trivial]
    -- nothing comes between the two steps, and the write succeeds
    have hflush : step k (s.goto t (.locking true)) (.flush t .done .done) =
        some ((s.goto t (.locking true)).flush k t .done .done) := by
      rw [step, if_pos (pc_goto s t _)]
    have hend : commitEnd k ((s.goto t (.locking true)).flush k t .done .done) t =
        some ((s.goto t (.locking true)).flush k t .done .done) := by
      refine if_neg ?_
      have hpc : ((s.goto t (.locking true)).flush k t .done .done).pc t = .idle := pc_goto _ t _
      rw [hpc]
      decide
    refine ⟨(s.goto t (.locking true)).flush k t .done .done, true, ?_, ?_⟩
    · rw [commitStore, hcommit]
      simp only [Option.bind_eq_bind, Option.bind_some, pc_goto, hflush, hend]
    · have hbuf : ((s.goto t (.locking true)).flush k t .done .done).buf =
          setCrc k.endian s.buf (crc32 s.buf k.buflen) := rfl
      rw [clean_iff hsupport, hbuf, getCrc_setCrc _ _ (crc32_lt _ _)]
      exact ⟨.inr, fun h => h.resolve_left fun hne => hne hcrc⟩
  · have hcommit : step k s (.commit t buf true) = some s := by
      simp only [step]
      rw [if_neg (not_not.mpr hidle), if_neg (not_not.mpr hsupport), if_pos hcrc]
    refine ⟨s, false, ?_, ?_⟩
    · rw [commitStore, hcommit]
      simp only [Option.bind_eq_bind, Option.bind_some, hidle]
    · rw [clean_iff hsupport]
      exact ⟨.inl, fun _ => hcrc⟩

/-- The buffer behind a store of a tag. -/
theorem commitStore_clean_iff_sample :
    ∃ s' wrote, commitStore sampleConfig ⟨sampleWords, sampleWords, fun _ => .idle⟩ () (ascii "1\n") true
        .done .done .done = some (s', wrote) ∧
      (Clean sampleConfig s' ↔
        getCrc sampleConfig.endian sampleWords ≠ 0 ∨ crc32 sampleWords sampleConfig.buflen ≠ 0) :=
  commitStore_clean_iff sampleConfig ⟨sampleWords, sampleWords, fun _ => .idle⟩ () (ascii "1\n") .done
    rfl rfl (by decide)

/-- A partition with a word behind the tag. -/
def wideConfig : Config := { sampleConfig with buflen := 20 }

/-- The word is such that the checksum is null once the tag has the value 4. -/
def wideWords : Mem := fun a =>
  [0x53, 0x6f, 0x66, 0x74, 0, 0, 0, 0, 0x01, 0, 0x04, 0, 0, 0, 0, 0, 0x72, 0xbc, 0x4e, 0xa0].getD a 0

def wideStart : St Unit :=
  let image := setCrc .little wideWords (crc32 wideWords 20)
  ⟨image, image, fun _ => .idle⟩

/-- A store is committed, and the buffer stays dirty: the next commit writes it again. -/
theorem commitStore_stays_dirty : ∃ s s' : St Unit,
    Reachable (Init wideConfig) (Next wideConfig) s ∧
      commitStore wideConfig s () (ascii "1\n") true .done .done .done = some (s', true) ∧
      commitShow wideConfig s' = "dirty\n" ∧
      (commitStore wideConfig s' () (ascii "1\n") true .done .done .done).map Prod.snd = some true := by
  have hinit : Init wideConfig wideStart :=
    ⟨fun _ => rfl, fun _ _ => rfl, valid_setCrc (by decide)⟩
  have hnext : Next wideConfig wideStart _ := ⟨.store () .uartSpeed true (ascii "9600\n"), rfl⟩
  have hreach := (Reachable.start hinit).next hnext
  refine ⟨_, _, hreach, rfl, ?_, ?_⟩
  · decide +kernel
  · decide +kernel

end HandsomeMod.Native.RbSoftconfig
