import HandsomeMod.Native.GpioButton

/-!
# Debouncing of button samples

Which samples of a button give an event, for the samples since the probe. A switch whose state was
never reported counts every sample towards its first event, whatever the sample before it was.
-/

namespace HandsomeMod.Native.GpioButton

open ForStd

/-- The samples and the events of a button so far, newest first. -/
structure Trace where
  bdata : ButtonData
  samples : List Sample
  events : List Event

/-- What `buttonProbe` leaves. -/
def Trace.start : Trace := ⟨⟨0, -1, 0⟩, [], []⟩

def Trace.step (hz : UInt64) (cfg : ButtonCfg) (t : Trace) (s : Sample) : Trace :=
  let (bdata, event) := handleButton hz cfg t.bdata s
  ⟨bdata, s :: t.samples, event.toList ++ t.events⟩

/-- The state that a sample shows. -/
def Sample.action (s : Sample) : Action := if s.value ≠ 0 then .pressed else .released

/-- A key counts as released before its first event, the state of a switch is unknown. -/
def lastReported (cfg : ButtonCfg) : List Event → Option Action
  | [] => if cfg.b.eventType = evKey then some .released else none
  | e :: _ => some e.action

/-- The `n` newest samples all show `a`. -/
def Steady (n : Nat) (samples : List Sample) (a : Action) : Prop :=
  n ≤ samples.length ∧ ∀ s ∈ samples.take n, s.action = a

/-- An event with state `a` is emitted exactly if the last `threshold + 1` samples were all `a` and
    `a` was not reported last. -/
def Debounced (cfg : ButtonCfg) (t : Trace) (_ : Sample) (t' : Trace) : Prop :=
  ∀ a, (∃ e, t'.events = e :: t.events ∧ e.action = a) ↔
    Steady (cfg.threshold.toNat + 1) t'.samples a ∧ lastReported cfg t.events ≠ some a

/-- The sample that may give the first event of a switch comes behind samples like it. -/
def StartSteady (cfg : ButtonCfg) (t : Trace) (s : Sample) (_ : Trace) : Prop :=
  cfg.b.eventType ≠ evKey → t.samples.length = cfg.threshold.toNat →
    ∀ s' ∈ t.samples, s'.action = s.action

/-! ### States and actions -/

/-- The action that reports a state. -/
def actionOf (state : Int) : Action := if state ≠ 0 then .pressed else .released

/-- The action of a sample is that of its value. -/
private theorem actionOf_buttonGetValue (s : Sample) : actionOf (buttonGetValue s.value) = s.action
    := by
  by_cases h : s.value = 0 <;> simp [actionOf, buttonGetValue, Sample.action, h]

/-- A value is zero or one. -/
private theorem buttonGetValue_cases (v : Int) : buttonGetValue v = 0 ∨ buttonGetValue v = 1 := by
  by_cases h : v = 0 <;> simp [buttonGetValue, h]

/-- There are two actions only. -/
theorem Action.eq_of_ne {a b c : Action} (ha : a ≠ c) (hb : b ≠ c) : a = b := by
  cases a <;> cases b <;> cases c <;> first | rfl | contradiction

/-! ### Steady samples -/

/-- How many of the newest samples do not show `a`. -/
def away (a : Action) (samples : List Sample) : Nat :=
  (samples.takeWhile fun s => s.action ≠ a).length

/-- A sample of the action starts the count again. -/
@[simp]
theorem away_cons_self {a : Action} {s : Sample} (samples : List Sample) (h : s.action = a) :
    away a (s :: samples) = 0 := by
  simp [away, h]

/-- Another sample counts. -/
@[simp]
theorem away_cons_of_ne {a : Action} {s : Sample} (samples : List Sample) (h : s.action ≠ a) :
    away a (s :: samples) = away a samples + 1 := by
  simp [away, h]

/-- Samples that are steady in another state are away from `a`. -/
theorem Steady.le_away {n : Nat} {samples : List Sample} {a b : Action} (h : Steady n samples b)
    (hne : b ≠ a) : n ≤ away a samples := by
  induction n generalizing samples with
  | zero => exact Nat.zero_le _
  | succ n ih =>
    cases samples with
    | nil => exact absurd h.1 (Nat.not_succ_le_zero n)
    | cons s samples =>
      have hs : s.action = b := h.2 s List.mem_cons_self
      have htail : Steady n samples b :=
        ⟨Nat.le_of_succ_le_succ h.1, fun s' hs' => h.2 s' (List.mem_cons_of_mem s hs')⟩
      rw [away_cons_of_ne samples (hs ▸ hne)]
      exact Nat.succ_le_succ (ih htail)

/-- As many samples away from an action are steady in the other one. -/
private theorem steady_of_le_away {n : Nat} {samples : List Sample} {a b : Action}
    (h : n ≤ away a samples) (hne : b ≠ a) : Steady n samples b := by
  -- there are two actions, so a sample that is not `a` is `b`
  induction n generalizing samples with
  | zero => exact ⟨Nat.zero_le _, fun s hs => absurd hs List.not_mem_nil⟩
  | succ n ih =>
    cases samples with
    | nil => exact absurd h (Nat.not_succ_le_zero n)
    | cons s samples =>
      have hs : s.action ≠ a := by
        intro heq
        rw [away_cons_self samples heq] at h
        exact Nat.not_succ_le_zero n h
      rw [away_cons_of_ne samples hs] at h
      obtain ⟨hlen, hall⟩ := ih (Nat.le_of_succ_le_succ h)
      refine ⟨Nat.succ_le_succ hlen, fun s' hs' => ?_⟩
      rw [List.take_succ_cons] at hs'
      obtain rfl | hs' := List.mem_cons.mp hs'
      · exact Action.eq_of_ne hs hne
      · exact hall s' hs'

/-- The newest sample of steady samples. -/
theorem Steady.head {n : Nat} {s : Sample} {samples : List Sample} {a : Action}
    (h : Steady (n + 1) (s :: samples) a) : s.action = a :=
  h.2 s (by simp)

/-- A run of samples is steady in the newest one if all have its action. -/
private theorem steady_all_iff {n : Nat} {s : Sample} {samples : List Sample}
    (hlen : samples.length = n) :
    Steady (n + 1) (s :: samples) s.action ↔ ∀ s' ∈ samples, s'.action = s.action := by
  have htake : (s :: samples).take (n + 1) = s :: samples := by
    rw [List.take_succ_cons, ← hlen, List.take_length]
  rw [Steady, htake]
  simp [hlen]

/-! ### One sample -/

variable {hz : UInt64} {cfg : ButtonCfg} {t : Trace} {s : Sample}

/-- A sample that only changes what is stored. -/
theorem step_of_none {bdata : ButtonData} (h : handleButton hz cfg t.bdata s = (bdata, none)) :
    t.step hz cfg s = ⟨bdata, s :: t.samples, t.events⟩ := by
  rw [Trace.step, h]
  rfl

/-- A key that is not pressed is not reported on initialization. -/
theorem step_init (hz : UInt64) (hlast : t.bdata.lastState = -1) (hkey : cfg.b.eventType = evKey)
    (hzero : buttonGetValue s.value = 0) :
    t.step hz cfg s = ⟨{ t.bdata with lastState := 0, count := 0 }, s :: t.samples, t.events⟩ := by
  apply step_of_none
  simp [handleButton, hlast, hkey, hzero]

/-- The state did not change. -/
theorem step_same (hz : UInt64) (cfg : ButtonCfg)
    (hlast : t.bdata.lastState = buttonGetValue s.value) :
    t.step hz cfg s = ⟨{ t.bdata with count := 0 }, s :: t.samples, t.events⟩ := by
  apply step_of_none
  have hne : buttonGetValue s.value ≠ -1 := by
    obtain h | h := buttonGetValue_cases s.value <;> rw [h] <;> decide
  simp [handleButton, hlast, hne]

/-- The sample is one more that is not the last state. -/
def Differs (cfg : ButtonCfg) (t : Trace) (s : Sample) : Prop :=
  t.bdata.lastState ≠ buttonGetValue s.value ∧
    ¬(t.bdata.lastState = -1 ∧ cfg.b.eventType = evKey ∧ buttonGetValue s.value = 0)

/-- Below the threshold a sample that differs is counted. -/
theorem step_count (hz : UInt64) (hdiff : Differs cfg t s) (hlt : t.bdata.count < cfg.threshold) :
    t.step hz cfg s =
      ⟨{ t.bdata with count := t.bdata.count + 1 }, s :: t.samples, t.events⟩ := by
  apply step_of_none
  rw [handleButton]
  simp only
  rw [if_neg hdiff.2, if_neg fun hand => hdiff.1 hand.2, if_pos hlt]

/-- At the threshold it is reported. -/
theorem step_report (hz : UInt64) (hdiff : Differs cfg t s) (hle : ¬t.bdata.count < cfg.threshold) :
    ∃ e, e.action = s.action ∧ t.step hz cfg s =
      ⟨⟨s.jiffies, buttonGetValue s.value, 0⟩, s :: t.samples, e :: t.events⟩ := by
  rw [Trace.step, handleButton]
  simp only
  rw [if_neg hdiff.2, if_neg fun hand => hdiff.1 hand.2, if_neg hle]
  exact ⟨_, actionOf_buttonGetValue s, rfl⟩

/-- Without an event, nothing may be due. -/
private theorem debounced_of_none {bdata : ButtonData}
    (h : t.step hz cfg s = ⟨bdata, s :: t.samples, t.events⟩) :
    Debounced cfg t s (t.step hz cfg s) ↔
      (Steady (cfg.threshold.toNat + 1) (s :: t.samples) s.action →
        lastReported cfg t.events = some s.action) := by
  -- the list of events is its own, so no event is new
  have hnone : ∀ a, ¬∃ e, t.events = e :: t.events ∧ e.action = a := by
    rintro a ⟨e, heq, -⟩
    exact absurd (congrArg List.length heq) (by simp)
  rw [Debounced, h]
  constructor
  · intro hall hsteady
    by_contra hlast
    exact hnone _ ((hall s.action).mpr ⟨hsteady, hlast⟩)
  · intro himp a
    constructor
    · intro hevent
      exact absurd hevent (hnone a)
    · rintro ⟨hsteady, hlast⟩
      obtain rfl := hsteady.head
      exact absurd (himp hsteady) hlast

/-- A report is right if the samples were steady and the action is not the last one reported. -/
private theorem debounced_of_event {bdata : ButtonData} {e : Event} (he : e.action = s.action)
    (h : t.step hz cfg s = ⟨bdata, s :: t.samples, e :: t.events⟩) :
    Debounced cfg t s (t.step hz cfg s) ↔
      Steady (cfg.threshold.toNat + 1) (s :: t.samples) s.action ∧
        lastReported cfg t.events ≠ some s.action := by
  rw [Debounced, h]
  constructor
  · intro hall
    exact (hall s.action).mp ⟨e, rfl, he⟩
  · intro hdue a
    constructor
    · rintro ⟨e', heq, rfl⟩
      -- the only new event is this one
      obtain ⟨rfl, -⟩ := List.cons.inj heq
      rw [he]
      exact hdue
    · rintro ⟨hsteady, -⟩
      exact ⟨e, rfl, he.trans hsteady.head⟩

/-! ### Invariant -/

/-- How the stored state of a button follows from its samples and events. -/
inductive Rep (cfg : ButtonCfg) (t : Trace) : Prop
  /-- Nothing was stored yet: every sample is counted. -/
  | unknown (hlast : t.bdata.lastState = -1) (hevents : t.events = [])
      (hcount : t.bdata.count = t.samples.length)
      (hle : t.samples.length ≤ cfg.threshold.toNat)
      (hkey : cfg.b.eventType = evKey → ∀ s ∈ t.samples, s.action = .pressed)
  /-- The samples that are away from the stored state are counted. -/
  | known (hstate : t.bdata.lastState = 0 ∨ t.bdata.lastState = 1)
      (hrep : lastReported cfg t.events = some (actionOf t.bdata.lastState))
      (hcount : t.bdata.count = away (actionOf t.bdata.lastState) t.samples)
      (hle : away (actionOf t.bdata.lastState) t.samples ≤ cfg.threshold.toNat)
      (hstart : cfg.b.eventType = evKey ∨ cfg.threshold.toNat < t.samples.length)

/-- The state after the probe represents an empty run. -/
theorem rep_start (cfg : ButtonCfg) : Rep cfg Trace.start :=
  .unknown rfl rfl rfl (Nat.zero_le _) fun _ _ hs => absurd hs List.not_mem_nil

/-- The stored state is the one of the sample exactly if their actions agree. -/
private theorem lastState_eq_iff (h : t.bdata.lastState = 0 ∨ t.bdata.lastState = 1) :
    t.bdata.lastState = buttonGetValue s.value ↔ actionOf t.bdata.lastState = s.action := by
  rw [← actionOf_buttonGetValue]
  obtain h | h := h <;> obtain h' | h' := buttonGetValue_cases s.value <;>
    rw [h, h'] <;> decide

/-- What is left after an event: the state of the sample, with nothing counted. -/
private theorem rep_of_event {bdata : ButtonData} {e : Event} (he : e.action = s.action)
    (hlast : bdata.lastState = buttonGetValue s.value) (hcount : bdata.count = 0)
    (hstart : cfg.b.eventType = evKey ∨ cfg.threshold.toNat < (s :: t.samples).length) :
    Rep cfg ⟨bdata, s :: t.samples, e :: t.events⟩ := by
  have haction : actionOf bdata.lastState = s.action := hlast ▸ actionOf_buttonGetValue s
  refine .known ?_ ?_ ?_ ?_ hstart
  · rw [hlast]
    exact buttonGetValue_cases s.value
  · rw [haction]
    exact congrArg some he
  · rw [haction, away_cons_self _ rfl]
    exact hcount
  · rw [haction, away_cons_self _ rfl]
    exact Nat.zero_le _

/-- Behind the first samples there is nothing to say about the start. -/
private theorem startSteady_of_lt
    (hstart : cfg.b.eventType = evKey ∨ cfg.threshold.toNat < t.samples.length) (t' : Trace) : StartSteady cfg t s t' := by
  intro hne hlen
  obtain hkey | hlt := hstart
  · exact absurd hkey hne
  · exact absurd hlen hlt.ne'

/-- A sample of a button whose state is stored gives the event that is due. -/
theorem Rep.step_known (hstate : t.bdata.lastState = 0 ∨ t.bdata.lastState = 1)
    (hrep : lastReported cfg t.events = some (actionOf t.bdata.lastState))
    (hcount : t.bdata.count = away (actionOf t.bdata.lastState) t.samples)
    (hle : away (actionOf t.bdata.lastState) t.samples ≤ cfg.threshold.toNat)
    (hstart : cfg.b.eventType = evKey ∨ cfg.threshold.toNat < t.samples.length) :
    Rep cfg (t.step hz cfg s) ∧ Debounced cfg t s (t.step hz cfg s) := by
  have hstart' : cfg.b.eventType = evKey ∨ cfg.threshold.toNat < (s :: t.samples).length :=
    hstart.imp_right fun hlt => Nat.lt_succ_of_lt hlt
  by_cases hsame : t.bdata.lastState = buttonGetValue s.value
  -- a sample of the reported state starts the count again
  · have haction := (lastState_eq_iff hstate).mp hsame
    have hstep := step_same hz cfg hsame
    constructor
    · rw [hstep]
      refine .known hstate hrep ?_ ?_ hstart'
      · show 0 = _
        rw [away_cons_self _ haction.symm]
        rfl
      · rw [away_cons_self _ haction.symm]
        exact Nat.zero_le _
    · rw [debounced_of_none hstep, hrep, haction]
      exact fun _ => rfl
  · have haction : s.action ≠ actionOf t.bdata.lastState := by
      intro heq
      exact hsame ((lastState_eq_iff hstate).mpr heq.symm)
    have hdiff : Differs cfg t s := by
      refine ⟨hsame, fun hand => ?_⟩
      obtain h | h := hstate <;> rw [h] at hand <;> exact absurd hand.1 (by decide)
    have haway := away_cons_of_ne t.samples haction
    by_cases hlt : t.bdata.count < cfg.threshold
    · -- still counting: the samples that differ are too few to be steady
      have hstep := step_count hz hdiff hlt
      have hlt' : away (actionOf t.bdata.lastState) t.samples < cfg.threshold.toNat := by omega
      constructor
      · rw [hstep]
        refine .known hstate hrep ?_ ?_ hstart'
        · show t.bdata.count + 1 = _
          rw [haway, hcount]
          rfl
        · rw [haway]
          exact hlt'
      · rw [debounced_of_none hstep]
        intro hsteady
        have hge := hsteady.le_away haction
        omega
    · obtain ⟨e, he, hstep⟩ := step_report hz hdiff hlt
      constructor
      · rw [hstep]
        exact rep_of_event he rfl rfl hstart'
      · rw [debounced_of_event he hstep, hrep]
        -- the samples of the other state are more than the threshold
        refine ⟨steady_of_le_away ?_ haction, fun heq => haction (Option.some.inj heq).symm⟩
        omega

/-- A sample of a button whose state is not stored yet. -/
theorem Rep.step_unknown (hlast : t.bdata.lastState = -1) (hevents : t.events = [])
    (hcount : t.bdata.count = t.samples.length) (hle : t.samples.length ≤ cfg.threshold.toNat)
    (hkey : cfg.b.eventType = evKey → ∀ s ∈ t.samples, s.action = .pressed) :
    Rep cfg (t.step hz cfg s) ∧
      (Debounced cfg t s (t.step hz cfg s) ↔ StartSteady cfg t s (t.step hz cfg s)) := by
  have haction := actionOf_buttonGetValue s
  by_cases hinit : cfg.b.eventType = evKey ∧ buttonGetValue s.value = 0
  · -- the state is stored without an event, as if it had been reported
    obtain ⟨htype, hzero⟩ := hinit
    have hstep := step_init hz hlast htype hzero
    rw [hzero] at haction
    have hreported : lastReported cfg t.events = some (actionOf 0) := by
      rw [hevents, lastReported, if_pos htype]
      rfl
    constructor
    · rw [hstep]
      refine .known (Or.inl rfl) hreported ?_ ?_ (Or.inl htype)
      · show 0 = _
        rw [away_cons_self _ haction.symm]
        rfl
      · show away (actionOf 0) _ ≤ _
        rw [away_cons_self _ haction.symm]
        exact Nat.zero_le _
    · rw [debounced_of_none hstep, hreported, haction]
      exact iff_of_true (fun _ => rfl) (startSteady_of_lt (Or.inl htype) _)
  · have hdiff : Differs cfg t s := by
      constructor
      · rw [hlast]
        obtain h | h := buttonGetValue_cases s.value <;> rw [h] <;> decide
      · exact fun hand => hinit hand.2
    -- a key that is not pressed would have been stored without an event
    have hpressed : cfg.b.eventType = evKey → s.action = .pressed := by
      intro htype
      obtain h | h := buttonGetValue_cases s.value
      · exact absurd ⟨htype, h⟩ hinit
      · rw [← haction, h]
        rfl
    by_cases hlt : t.bdata.count < cfg.threshold
    -- the threshold is not reached, so no event is due
    · have hstep := step_count hz hdiff hlt
      constructor
      · rw [hstep]
        refine .unknown hlast hevents ?_ ?_ ?_
        · show t.bdata.count + 1 = _
          rw [hcount]
          rfl
        · show t.samples.length + 1 ≤ _
          omega
        · intro htype s' hs'
          obtain rfl | hs' := List.mem_cons.mp hs'
          · exact hpressed htype
          · exact hkey htype s' hs'
      · rw [debounced_of_none hstep]
        refine iff_of_true (fun hsteady => ?_) fun _ hlen => ?_
        · have hge : _ ≤ t.samples.length + 1 := hsteady.1
          omega
        · omega
    · -- the first event
      have hlen : t.samples.length = cfg.threshold.toNat := by omega
      obtain ⟨e, he, hstep⟩ := step_report hz hdiff hlt
      constructor
      · rw [hstep]
        exact rep_of_event he rfl rfl (Or.inr (Nat.lt_succ_of_le hlen.ge))
      · rw [debounced_of_event he hstep, steady_all_iff hlen, hevents, lastReported]
        by_cases htype : cfg.b.eventType = evKey
        · rw [if_pos htype, hpressed htype]
          exact iff_of_true ⟨hkey htype, by decide⟩ (startSteady_of_lt (Or.inl htype) _)
        · rw [if_neg htype]
          exact ⟨fun hdue _ _ => hdue.1, fun hsteady => ⟨hsteady htype hlen, by simp⟩⟩

/-- One sample keeps the invariant, and gives the event that is due exactly if it does not end the
    unsteady start of a switch. -/
theorem Rep.step (hrep : Rep cfg t) : Rep cfg (t.step hz cfg s) ∧
    (Debounced cfg t s (t.step hz cfg s) ↔ StartSteady cfg t s (t.step hz cfg s)) := by
  cases hrep with
  | unknown hlast hevents hcount hle hkey => exact step_unknown hlast hevents hcount hle hkey
  | known hstate hrep hcount hle hstart =>
    obtain ⟨hnext, hdue⟩ : Rep cfg (t.step hz cfg s) ∧ Debounced cfg t s (t.step hz cfg s) :=
      step_known hstate hrep hcount hle hstart
    exact ⟨hnext, iff_of_true hdue (startSteady_of_lt hstart _)⟩

/-! ### Runs -/

/-- The samples that count towards the first event of a switch show what this event reports. -/
def StartsSteady (cfg : ButtonCfg) (samples : List Sample) : Prop :=
  cfg.b.eventType = evKey ∨ ∀ l ∈ samples[cfg.threshold.toNat]?,
    ∀ s ∈ samples.take cfg.threshold.toNat, s.action = l.action

/-- A trace takes the samples one after the other. -/
private theorem samples_step : (t.step hz cfg s).samples = s :: t.samples := rfl

/-- Nor is there along the rest of the run. -/
private theorem along_of_lt {rest : List Sample} (hlt : cfg.threshold.toNat < t.samples.length) :
    Along (Trace.step hz cfg) (StartSteady cfg) t rest := by
  induction rest generalizing t with
  | nil => trivial
  | cons s rest ih =>
    exact ⟨startSteady_of_lt (Or.inr hlt) _, ih (by rw [samples_step]; exact Nat.lt_succ_of_lt hlt)⟩

/-- `n` samples are missing to the one that may give the first event. -/
private theorem along_startSteady_iff {rest : List Sample} {n : Nat}
    (hn : t.samples.length + n = cfg.threshold.toNat) (htype : cfg.b.eventType ≠ evKey) :
    Along (Trace.step hz cfg) (StartSteady cfg) t rest ↔
      ∀ l ∈ rest[n]?, ∀ s, s ∈ t.samples ∨ s ∈ rest.take n → s.action = l.action := by
  -- `n` samples are left up to the first event, behind it the condition is void
  induction rest generalizing t n with
  | nil => simp [Along]
  | cons s rest ih =>
    cases n with
    | zero =>
      have hlt : cfg.threshold.toNat < (t.step hz cfg s).samples.length := by
        rw [samples_step, List.length_cons]
        omega
      constructor
      · rintro ⟨hstart, -⟩ l hl s' hs'
        obtain rfl : s = l := by simpa using hl
        obtain hs' | hs' := hs'
        · exact hstart htype hn s' hs'
        · exact absurd hs' List.not_mem_nil
      · intro hall
        exact ⟨fun _ _ s' hs' => hall s (by simp) s' (Or.inl hs'), along_of_lt hlt⟩
    | succ n =>
      have hfree : StartSteady cfg t s (t.step hz cfg s) := by
        intro _ hlen
        omega
      have hnext : (t.step hz cfg s).samples.length + n = cfg.threshold.toNat := by
        rw [samples_step, List.length_cons]
        omega
      show _ ∧ Along _ _ (t.step hz cfg s) rest ↔ _
      rw [ih hnext, List.getElem?_cons_succ, List.take_succ_cons, samples_step]
      simp only [hfree, true_and, List.mem_cons]
      refine forall_congr' fun l => forall_congr' fun _ => forall_congr' fun s' => ?_
      rw [or_assoc, or_left_comm]

/-- The condition on the start, along a run and on its samples. -/
theorem along_startSteady (hz : UInt64) (cfg : ButtonCfg) (samples : List Sample) :
    Along (Trace.step hz cfg) (StartSteady cfg) .start samples ↔ StartsSteady cfg samples := by
  by_cases htype : cfg.b.eventType = evKey
  · have hkeep : ∀ (t : Trace) (s : Sample), True → True →
        True ∧ StartSteady cfg t s (t.step hz cfg s) :=
      fun _ _ _ _ => ⟨trivial, startSteady_of_lt (Or.inl htype) _⟩
    exact iff_of_true (Along.of_invariant hkeep trivial (Along.of_forall fun _ _ => trivial))
      (Or.inl htype)
  · rw [along_startSteady_iff (n := cfg.threshold.toNat) (Nat.zero_add _) htype, StartsSteady]
    simp [htype, Trace.start]

/-- Events that are due differ from the ones before them. -/
theorem isChain_of_debounced {samples : List Sample}
    (h : Along (Trace.step hz cfg) (Debounced cfg) t samples)
    (hchain : (t.events.map Event.action).IsChain (· ≠ ·)) :
    ((samples.foldl (Trace.step hz cfg) t).events.map Event.action).IsChain (· ≠ ·) := by
  -- an event is due only when the last one was another
  induction samples generalizing t with
  | nil => exact hchain
  | cons s samples ih =>
    obtain ⟨hdue, hrest⟩ := h
    apply ih hrest
    have hevents : (t.step hz cfg s).events =
        (handleButton hz cfg t.bdata s).2.toList ++ t.events := rfl
    cases hev : (handleButton hz cfg t.bdata s).2 with
    | none =>
      rw [hev] at hevents
      rw [hevents]
      exact hchain
    | some e =>
      rw [hev] at hevents
      have hne := ((hdue e.action).mp ⟨e, hevents, rfl⟩).2
      rw [hevents]
      cases hold : t.events with
      | nil => exact .singleton _
      | cons e' events =>
        rw [hold] at hne hchain
        exact .cons_cons (fun heq => hne (congrArg some heq.symm)) hchain

/-- From the probe on, a sample gives an event exactly if it ends `threshold + 1` samples of a state
    that was not reported last, and the events alternate, provided that the samples before the
    first event of a switch do not bounce. -/
theorem run_debounced_iff (hz : UInt64) (cfg : ButtonCfg) (samples : List Sample) :
    (Along (Trace.step hz cfg) (Debounced cfg) .start samples ∧
      ((samples.foldl (Trace.step hz cfg) .start).events.map Event.action).IsChain (· ≠ ·)) ↔
    StartsSteady cfg samples := by
  rw [← along_startSteady hz]
  have hiff : Along (Trace.step hz cfg) (Debounced cfg) .start samples ↔
      Along (Trace.step hz cfg) (StartSteady cfg) .start samples := by
    -- one sample keeps the state of the driver, when the start is steady
    have hkeep : ∀ (t : Trace) (s : Sample), Rep cfg t → True →
        StartSteady cfg t s (t.step hz cfg s) →
        Rep cfg (t.step hz cfg s) ∧ Debounced cfg t s (t.step hz cfg s) :=
      fun _ _ hrep _ hok => ⟨hrep.step.1, hrep.step.2.mpr hok⟩
    -- and where it breaks the start, it reports what is not steady
    have hbreak : ∀ (t : Trace) (s : Sample), Rep cfg t → True →
        Debounced cfg t s (t.step hz cfg s) → StartSteady cfg t s (t.step hz cfg s) :=
      fun _ _ hrep _ hgood => hrep.step.2.mp hgood
    exact Along.iff_of_invariant hkeep hbreak (rep_start cfg) (Along.of_forall fun _ _ => trivial)
  rw [← hiff]
  exact ⟨And.left, fun h => ⟨h, isChain_of_debounced h .nil⟩⟩

/-- The buttons of a polled device do not disturb each other. -/
private theorem polledPoll_apply (hz : UInt64) (cfg : Nat → ButtonCfg) {nbuttons i : Nat}
    (dev : PolledDev) (samples : Nat → Sample) (hi : i < nbuttons) :
    polledPoll hz cfg nbuttons dev samples i =
      ((handleButton hz (cfg i) (dev i).1 (samples i)).1,
        (handleButton hz (cfg i) (dev i).1 (samples i)).2.toList ++ (dev i).2) := by
  have hnodup : ((List.range nbuttons).map id).Nodup := by
    rw [List.map_id]
    exact List.nodup_range
  exact (foldl_update (fun (d : PolledDev) k => d k) id
    (fun j p => ((handleButton hz (cfg j) p.1 (samples j)).1,
      (handleButton hz (cfg j) p.1 (samples j)).2.toList ++ p.2)) _ hnodup
    (fun j _ d k => by
      by_cases hk : k = j
      · subst hk
        simp [polledTurn]
      · simp [polledTurn, hk]) dev).1 i (List.mem_range.mpr hi)

/-- In a run of polls, every button takes its own samples. -/
theorem polledRun_apply (hz : UInt64) (cfg : Nat → ButtonCfg) {nbuttons i : Nat}
    (dev : PolledDev) (rounds : List (Nat → Sample)) (hi : i < nbuttons) (t : Trace)
    (ht : dev i = (t.bdata, t.events)) :
    rounds.foldl (polledPoll hz cfg nbuttons) dev i =
      (((rounds.map (· i)).foldl (Trace.step hz (cfg i)) t).bdata,
        ((rounds.map (· i)).foldl (Trace.step hz (cfg i)) t).events) := by
  induction rounds generalizing dev t with
  | nil => exact ht
  | cons samples rounds ih =>
    rw [List.foldl_cons, List.map_cons, List.foldl_cons]
    apply ih
    rw [polledPoll_apply hz cfg dev samples hi, ht]
    rfl

/-- What is probed starts a trace. -/
theorem buttonProbe_start {polled : Bool} {pollInterval : UInt32} {button : Button}
    {p : ButtonCfg × ButtonData} (h : buttonProbe polled pollInterval button = some p) :
    p.1.b = button ∧ p.2 = Trace.start.bdata := by
  rw [buttonProbe] at h
  -- a button that fails a check is refused
  split at h
  · cases h
  split at h
  · cases h
  cases hindex : buttonGetIndex button.code with
  | none =>
    rw [hindex] at h
    cases h
  | some mapEntry =>
    rw [hindex] at h
    simp only at h
    split at h
    · cases h
      exact ⟨rfl, rfl⟩
    · cases h

private theorem sample_entry_lt : 20 < buttonMap.length := by decide

/-- A switch that is polled at twice the rate of its debouncing time. -/
def sampleCfg : ButtonCfg :=
  { b := { code := 247, type := evSw, debounceInterval := 20, wakeup := false }
    mapEntry := ⟨20, sample_entry_lt⟩
    threshold := 1 }

/-- One sample of a switch that is off, then one that is on: the switch is reported at once. -/
theorem bounce_reported :
    ¬(Along (Trace.step 100 sampleCfg) (Debounced sampleCfg) .start [⟨0, 500⟩, ⟨1, 501⟩] ∧
      (([⟨0, 500⟩, ⟨1, 501⟩].foldl (Trace.step 100 sampleCfg) .start).events.map
        Event.action).IsChain (· ≠ ·)) := by
  rintro ⟨⟨-, hsecond, -⟩, -⟩
  obtain ⟨⟨-, hall⟩, -⟩ := (hsecond .pressed).mp ⟨_, rfl, rfl⟩
  have hoff : (Sample.mk 0 500).action = .pressed :=
    hall _ (List.mem_cons_of_mem _ List.mem_cons_self)
  exact absurd hoff (by decide)

end HandsomeMod.Native.GpioButton
