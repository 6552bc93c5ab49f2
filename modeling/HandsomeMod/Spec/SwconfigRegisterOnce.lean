import HandsomeMod.ForStd.Run
import HandsomeMod.Native.Swconfig

/-!
# Registration as a whole

The ids and the names of the listed switches are distinct in every run. A call of `register_switch`
that fails leaves the switch out of the list, unless it is the LED trigger that fails: the switch is
on the list then.
-/

namespace HandsomeMod.Native.Swconfig.Register

open ForStd

universe u

variable {δ : Type u} {cfg : Cfg} {s : Registry δ}

/-! ### Names -/

/-- A number is read as it was printed. -/
private theorem scanInt_decText {n : Nat} (hn : n < 2 ^ 31) : scanInt (decText n) = some (n : Int)
    := by
  obtain ⟨hne, hds, hval⟩ := decText_spec n
  obtain ⟨d, ds, hcons⟩ := List.exists_cons_of_ne_nil hne
  have hd : isDigit d = true := hds d (by rw [hcons]; exact List.mem_cons_self)
  have hspace : (decText n).dropWhile isSpace = decText n := by
    rw [hcons, List.dropWhile_cons, isSpace_of_isDigit hd]
    rfl
  -- no space and no sign in front of the digits
  have hsign : (decText n).head? ≠ some 0x2d := by
    rw [hcons, List.head?_cons]
    intro h
    rw [Option.some.inj h] at hd
    exact absurd hd (by decide)
  have hall : (decText n).takeWhile isDigit = decText n := List.takeWhile_eq_self_iff.mpr hds
  simp only [scanInt, hspace, beq_eq_false_iff_ne.mpr hsign, Bool.false_eq_true, if_false, hall,
    if_neg hne, hval, Option.some.injEq]
  exact Int.bmod_eq_of_le_mul_two (by omega) (by omega)

/-- The names of the first 64 switches are short enough. -/
private theorem devname_eq {i : Nat} (hi : i < 64) : devname i = ascii "switch" ++ decText i := by
  rw [devname, List.take_of_length_le]
  revert i
  decide

/-- A name that was given is found again. -/
private theorem scanDevname_devname {i : Nat} (hi : i < 64) : scanDevname (devname i)
    = some (i : Int) := by
  have hlen : (ascii "switch").length = 6 := by decide
  rw [scanDevname, devname_eq hi, if_pos, List.drop_left' hlen, scanInt_decText (by omega)]
  exact List.isPrefixOf_iff_prefix.mpr (List.prefix_append _ _)

/-- The bit that is found is clear. -/
theorem findFirstZeroBit_spec {w : Nat} (x : BitVec w) (h : findFirstZeroBit x ≠ w) :
    findFirstZeroBit x < w ∧ x.getLsbD (findFirstZeroBit x) = false := by
  rw [findFirstZeroBit] at h ⊢
  cases hfind : (List.range w).find? fun i => !x.getLsbD i with
  | none =>
    rw [hfind] at h
    exact absurd rfl h
  | some i =>
    have hbit := List.find?_some hfind
    have hmem := List.mem_of_find?_eq_some hfind
    rw [Bool.not_eq_true'] at hbit
    exact ⟨List.mem_range.mp hmem, hbit⟩

/-- A mark stays. -/
private theorem foldl_markInUse_mono {swdevs : List (Listed δ)} {x : BitVec cfg.longBits} {k : Nat}
    (h : x.getLsbD k = true) : (swdevs.foldl (markInUse cfg) x).getLsbD k = true := by
  induction swdevs generalizing x with
  | nil => exact h
  | cons sdev swdevs ih =>
    refine ih ?_
    rw [markInUse]
    split
    · exact h
    · split
      · exact h
      · rw [BitVec.getLsbD_or, h, Bool.true_or]

/-- The name of every listed switch is in use. -/
private theorem inUse_devname {swdevs : List (Listed δ)} {sdev : Listed δ} (hmem : sdev ∈ swdevs)
    {i : Nat}
    (hi : i < cfg.longBits) (hname : sdev.devname = devname i) :
    (inUse cfg swdevs).getLsbD i = true := by
  obtain ⟨front, back, rfl⟩ := List.append_of_mem hmem
  have hle := cfg.longBits_le
  rw [inUse, List.foldl_append, List.foldl_cons]
  apply foldl_markInUse_mono
  rw [markInUse, hname, scanDevname_devname (by omega)]
  simp only
  rw [if_neg (by omega), BitVec.getLsbD_or, Int.toNat_natCast, BitVec.getLsbD_twoPow]
  simp [hi]

/-! ### Runs -/

/-- A call -/
inductive Call (δ : Type u) where
  | register (dev : SwitchDev δ) (env : Env)
  | unregister (dev : δ)

def step [DecidableEq δ] (cfg : Cfg) (s : Registry δ) : Call δ → Registry δ
  | .register dev env => (registerSwitch cfg s dev env).1
  | .unregister dev => unregisterSwitch s dev

/-- A switch is not registered while it is on the list. -/
def Allowed (s : Registry δ) : Call δ → Prop
  | .register dev _ => dev.dev ∉ s.swdevs.map Listed.dev
  | .unregister _ => True

/-- The registered switches can be told apart, and a switch whose registration failed is not among
    them. -/
structure Good (cfg : Cfg) (s : Registry δ) (c : Call δ) (s' : Registry δ) : Prop where
  ids : (s'.swdevs.map Listed.id).Nodup
  names : (s'.swdevs.map Listed.devname).Nodup
  failed : ∀ dev env, c = .register dev env → (registerSwitch cfg s dev env).2 ≠ none →
    dev.dev ∉ s'.swdevs.map Listed.dev

/-- Registration gets to the LED trigger: an id, the memory and a name are left. -/
def Reaches (cfg : Cfg) (s : Registry δ) (dev : SwitchDev δ) (env : Env) : Prop :=
  s.swdevId ≠ 2 ^ 31 - 1 ∧ (dev.ports = 0 ∨ env.portbuf = true ∧ env.portmap = true) ∧
    findFirstZeroBit (inUse cfg s.swdevs) ≠ cfg.longBits

/-- The LED trigger, where there is one, can be created. -/
def LedOk (cfg : Cfg) (s : Registry δ) : Call δ → Prop
  | .register dev env => Reaches cfg s dev env → cfg.leds = true → dev.getPortLink = true →
      env.swTrig = true ∧ env.ledTriggerRegister = none
  | .unregister _ => True

structure Inv (s : Registry δ) : Prop where
  ids : (s.swdevs.map Listed.id).Nodup
  names : (s.swdevs.map Listed.devname).Nodup
  id_le : ∀ sdev ∈ s.swdevs, sdev.id ≤ s.swdevId

/-- When the trigger for the LEDs is made. -/
private theorem createLedTrigger_eq_none {dev : SwitchDev δ} {env : Env} :
    createLedTrigger cfg dev env = none ↔ (cfg.leds = true → dev.getPortLink = true →
      env.swTrig = true ∧ env.ledTriggerRegister = none) := by
  rw [createLedTrigger]
  cases cfg.leds <;> cases dev.getPortLink <;> cases env.swTrig <;> simp

/-- A switch is put on the list. -/
def Registry.add (s : Registry δ) (dev : δ) (name : List UInt8) : Registry δ where
  swdevs := s.swdevs ++ [{ dev := dev, id := s.swdevId + 1, devname := name }]
  swdevId := s.swdevId + 1

variable (cfg) in
/-- A call that fails early changes nothing but the counter; one that reaches the LED trigger puts
    the switch on the list. -/
private theorem registerSwitch_cases (s : Registry δ) (dev : SwitchDev δ) (env : Env) :
    (¬Reaches cfg s dev env ∧ (registerSwitch cfg s dev env).2 ≠ none ∧
      (registerSwitch cfg s dev env).1.swdevs = s.swdevs ∧
      s.swdevId ≤ (registerSwitch cfg s dev env).1.swdevId) ∨
    (Reaches cfg s dev env ∧ registerSwitch cfg s dev env =
      (s.add dev.dev (devname (findFirstZeroBit (inUse cfg s.swdevs))),
        createLedTrigger cfg dev env)) := by
  rw [registerSwitch]
  by_cases hid : s.swdevId = 2 ^ 31 - 1
  · rw [if_pos hid]
    exact .inl ⟨fun h => h.1 hid, Option.some_ne_none _, rfl, Nat.le_refl _⟩
  rw [if_neg hid]
  by_cases hmem : dev.ports > 0 ∧ (env.portbuf = false ∨ env.portmap = false)
  · rw [if_pos hmem]
    refine .inl ⟨fun h => ?_, Option.some_ne_none _, rfl, Nat.le_refl _⟩
    rcases h.2.1 with hzero | ⟨hbuf, hmap⟩
    · omega
    · rw [hbuf, hmap] at hmem
      simp at hmem
  rw [if_neg hmem]
  simp only
  -- the last guard: all names up to the width of a long are taken
  by_cases hname : findFirstZeroBit (inUse cfg s.swdevs) = cfg.longBits
  · rw [if_pos hname]
    exact .inl ⟨fun h => h.2.2 hname, Option.some_ne_none _, rfl, Nat.le_succ _⟩
  · rw [if_neg hname]
    refine .inr ⟨⟨hid, ?_, hname⟩, rfl⟩
    by_cases hzero : dev.ports = 0
    · exact .inl hzero
    · exact .inr (by simpa [Nat.pos_of_ne_zero hzero] using hmem)

/-- A new entry keeps the list in order. -/
theorem Inv.append (hs : Inv s) (dev : δ)
    (hname : findFirstZeroBit (inUse cfg s.swdevs) ≠ cfg.longBits) :
    Inv (s.add dev (devname (findFirstZeroBit (inUse cfg s.swdevs)))) := by
  obtain ⟨hlt, hfree⟩ := findFirstZeroBit_spec _ hname
  constructor
  · rw [Registry.add, List.map_append, List.nodup_append]
    refine ⟨hs.ids, List.nodup_singleton _, fun id hid id' hid' => ?_⟩
    obtain ⟨sdev, hmem, rfl⟩ := List.mem_map.mp hid
    rw [List.mem_singleton.mp hid']
    have hle := hs.id_le sdev hmem
    show sdev.id ≠ s.swdevId + 1
    omega
  · rw [Registry.add, List.map_append, List.nodup_append]
    refine ⟨hs.names, List.nodup_singleton _, fun name hn name' hn' heq => ?_⟩
    obtain ⟨sdev, hmem, rfl⟩ := List.mem_map.mp hn
    rw [List.mem_singleton.mp hn'] at heq
    -- the name would have been found
    rw [inUse_devname hmem hlt heq] at hfree
    cases hfree
  · intro sdev hmem
    rcases List.mem_append.mp hmem with hold | hnew
    · exact Nat.le_succ_of_le (hs.id_le sdev hold)
    · rw [List.mem_singleton.mp hnew]
      exact Nat.le_refl _

section Runs

variable [DecidableEq δ]

/-- Unregistering a switch keeps the invariant. -/
theorem Inv.unregister (hs : Inv s) (dev : δ) : Inv (unregisterSwitch s dev) where
  ids := hs.ids.sublist (List.filter_sublist.map _)
  names := hs.names.sublist (List.filter_sublist.map _)
  id_le sdev hmem := hs.id_le sdev (List.mem_of_mem_filter hmem)

variable (cfg) in

/-- Every call keeps the invariant. -/
theorem step_inv (hs : Inv s) (c : Call δ) : Inv (step cfg s c) := by
  cases c with
  | unregister dev => exact hs.unregister dev
  | register dev env =>
    rw [step]
    -- a refused call adds no switch, an accepted one adds it with a new id
    rcases registerSwitch_cases cfg s dev env with ⟨-, -, hsame, hle⟩ | ⟨hreach, heq⟩
    · constructor
      · rw [hsame]
        exact hs.ids
      · rw [hsame]
        exact hs.names
      · rw [hsame]
        exact fun sdev hmem => Nat.le_trans (hs.id_le sdev hmem) hle
    · rw [heq]
      exact hs.append dev.dev hreach.2.2

/-- A call does what it is for exactly if the trigger is made. -/
theorem good_iff (hs : Inv s) {c : Call δ} (hallowed : Allowed s c) :
    Good cfg s c (step cfg s c) ↔ LedOk cfg s c := by
  have hinv := step_inv cfg hs c
  constructor
  · intro hgood
    cases c with
    | unregister dev => trivial
    | register dev env =>
      intro hreach
      rcases registerSwitch_cases cfg s dev env with ⟨hnot, -⟩ | ⟨-, heq⟩
      · exact absurd hreach hnot
      · refine createLedTrigger_eq_none.mp ?_
        by_contra herr
        -- the switch has been put on the list
        refine hgood.failed dev env rfl (by rw [heq]; exact herr) ?_
        rw [step, heq, Registry.add, List.map_append]
        exact List.mem_append_right _ (List.mem_singleton.mpr rfl)
  · intro hok
    refine ⟨hinv.ids, hinv.names, fun dev env hc herr => ?_⟩
    subst hc
    rw [step]
    rcases registerSwitch_cases cfg s dev env with ⟨-, -, hsame, -⟩ | ⟨hreach, heq⟩
    · rw [hsame]
      exact hallowed
    · rw [heq] at herr
      exact absurd (createLedTrigger_eq_none.mpr (hok hreach)) herr

/-- In every run from an empty list, registration is all or nothing exactly if no LED trigger
    fails. -/
theorem registers_good_iff (cfg : Cfg) (calls : List (Call δ))
    (hallowed : Along (step cfg) (fun s c _ => Allowed s c)
      ({ swdevs := [], swdevId := 0 } : Registry δ) calls) :
    Along (step cfg) (Good cfg) ({ swdevs := [], swdevId := 0 } : Registry δ) calls ↔
      Along (step cfg) (fun s c _ => LedOk cfg s c)
        ({ swdevs := [], swdevId := 0 } : Registry δ) calls := by
  have hkeep : ∀ (s : Registry δ) (c : Call δ), Inv s → Allowed s c → LedOk cfg s c →
      Inv (step cfg s c) ∧ Good cfg s c (step cfg s c) :=
    fun s c hs hc hok => ⟨step_inv _ hs c, (good_iff hs hc).mpr hok⟩
  have hbreak : ∀ (s : Registry δ) (c : Call δ), Inv s → Allowed s c →
      Good cfg s c (step cfg s c) → LedOk cfg s c := fun s c hs hc => (good_iff hs hc).mp
  exact Along.iff_of_invariant hkeep hbreak
    ⟨List.nodup_nil, List.nodup_nil, fun _ h => absurd h List.not_mem_nil⟩ hallowed

end Runs

private theorem sixtyFour_le : 64 ≤ 64 := Nat.le_refl 64

/-- A 64-bit kernel with LED triggers -/
def sampleCfg : Cfg := { longBits := 64, longBits_le := sixtyFour_le, leds := true }

/-- Every step succeeds. -/
def fine : Env := { portbuf := true, portmap := true, swTrig := true, ledTriggerRegister := none }

/-- Two switches; the name of the first one is given to a third one. -/
theorem registers_good_iff_sample :
    let calls : List (Call Nat) := [.register ⟨0, 5, true⟩ fine, .register ⟨1, 7, true⟩ fine,
      .unregister 0, .register ⟨2, 7, false⟩ fine]
    Along (step sampleCfg) (Good sampleCfg) { swdevs := [], swdevId := 0 } calls := by
  intro calls
  have hallowed : Along (step sampleCfg) (fun s c _ => Allowed s c) { swdevs := [], swdevId := 0 }
      calls := by
    refine ⟨List.not_mem_nil, ?_, trivial, ?_, trivial⟩
    · show 1 ∉ (step sampleCfg _ _).swdevs.map Listed.dev
      decide
    · show 2 ∉ (step sampleCfg _ _).swdevs.map Listed.dev
      decide
  exact (registers_good_iff sampleCfg calls hallowed).mpr
    ⟨fun _ _ _ => ⟨rfl, rfl⟩, fun _ _ _ => ⟨rfl, rfl⟩, trivial, fun _ _ _ => ⟨rfl, rfl⟩, trivial⟩

/-- The LED trigger of the first switch cannot be allocated. -/
theorem failed_switch_listed :
    let s : Registry Nat := { swdevs := [], swdevId := 0 }
    let (s', err) := registerSwitch sampleCfg s ⟨0, 5, true⟩ { fine with swTrig := false }
    err = some .enomem ∧ s'.swdevs.map Listed.dev = [0] ∧
      ¬Along (step sampleCfg) (Good sampleCfg) s
        [.register ⟨0, 5, true⟩ { fine with swTrig := false }] := by
  refine ⟨by decide, by decide, ?_⟩
  rintro ⟨hgood, -⟩
  have hlisted := hgood.failed _ _ rfl (by decide)
  revert hlisted
  decide

end HandsomeMod.Native.Swconfig.Register
