import HandsomeMod.ForStd.Run
import HandsomeMod.Spec.Rtl83xxBridgeOps

/-!
# Isolation of the bridge ports

Two user ports may talk to each other exactly if they are in the same bridge. The driver keeps
this up until a port leaves a bridge that has another member, which gets the bit of the leaving
port again instead of losing it, or until a port is enabled that left its bridge while it was
disabled: its mask has lost the CPU port.
-/

namespace HandsomeMod.Native.Rtl83xx.Bridge

open HandsomeMod.ForStd

universe u

variable {β : Type u} {d : Dsa} {s : Priv β} {port : Nat} {bridge : β}

/-! ### Isolation -/

/-- Traffic follows the bridges: between two enabled user ports exactly within a bridge, from and
    to the CPU port always, and the masks say the same. -/
structure Isolated (d : Dsa) (s : Priv β) : Prop where
  matrix : ∀ i j, d.isUserPort i → d.isUserPort j → i ≠ j →
    (s.ports i).enable → (s.ports j).enable → (s.Sends i j ↔ s.SameBridge i j)
  cpu : ∀ i, d.isUserPort i → (s.ports i).enable → s.Sends i cpuPort ∧ s.Sends cpuPort i
  pm : ∀ i j, d.isUserPort i → d.isUserPort j → i ≠ j → (s.InPm i j ↔ s.SameBridge i j)

/-- No port leaves a bridge with another member, and no port is enabled that has lost the CPU port
    from its mask and from its row of the matrix, because it left its bridge while disabled. -/
def Request.Harmless (d : Dsa) (s : Priv β) : Request β → Prop
  | .enable port => s.InPm port cpuPort ∨ s.Sends port cpuPort
  | .disable _ => True
  | .join _ _ => True
  | .leave port bridge =>
    ∀ i, d.isUserPort i → i ≠ port → (s.ports i).bridgeDev ≠ some bridge

/-- What harmless requests preserve. The row of a disabled port may lack members, but has no
    stranger. -/
structure Inv (d : Dsa) (s : Priv β) : Prop where
  pm : ∀ i j, d.isUserPort i → d.isUserPort j → i ≠ j → (s.InPm i j ↔ s.SameBridge i j)
  same : ∀ i j, d.isUserPort i → d.isUserPort j → i ≠ j → s.Sends i j → s.SameBridge i j
  sends : ∀ i j, d.isUserPort i → d.isUserPort j → i ≠ j → (s.ports i).enable →
    s.SameBridge i j → s.Sends i j
  cpu : ∀ i, d.isUserPort i → (s.ports i).enable → s.Sends i cpuPort ∧ s.Sends cpuPort i

/-- The invariant says who can reach whom. -/
theorem Inv.isolated (h : Inv d s) : Isolated d s where
  matrix i j hi hj hne hei _ := ⟨h.same i j hi hj hne, h.sends i j hi hj hne hei⟩
  cpu := h.cpu
  pm := h.pm

/-- The state behind the setup meets the invariant. -/
theorem Init.inv (h : Init d s) : Inv d s where
  pm i j hi hj hne := by
    have hlt : j < 28 := d.lt_cpuPort j hj
    have hcpu : j ≠ cpuPort := by unfold cpuPort; omega
    unfold Priv.InPm Priv.SameBridge
    rw [h.pm i hi, h.bridge i hi, getLsbD_bitUll (by decide)]
    simp [hcpu]
  same i j hi hj hne hs := by
    unfold Priv.Sends at hs
    rw [h.isolated i j hi hj hne] at hs
    cases hs
  sends i j hi _ _ _ hsame := by
    obtain ⟨b, hb, -⟩ := hsame
    rw [h.bridge i hi] at hb
    cases hb
  cpu := h.enabled

/-- Enabling a port keeps the invariant. -/
theorem Inv.enable (h : Inv d s) (huser : d.isUserPort port)
    (hcpu : s.InPm port cpuPort ∨ s.Sends port cpuPort) : Inv d (portEnable s port) := by
  have hlt : ∀ i, d.isUserPort i → i < 32 := fun i hi => by
    have hlt : i < 28 := d.lt_cpuPort i hi
    omega
  have hnc : ∀ i, d.isUserPort i → i ≠ cpuPort := fun i hi => Nat.ne_of_lt (d.lt_cpuPort i hi)
  have hsame : ∀ i j, (portEnable s port).SameBridge i j ↔ s.SameBridge i j := fun i j => by
    unfold Priv.SameBridge
    simp only [bridgeDev_portEnable]
  refine ⟨fun i j hi hj hne => ?_, fun i j hi hj hne hs => ?_, fun i j hi hj hne he hb => ?_,
    fun i hi he => ?_⟩
  · rw [inPm_portEnable, hsame]
    exact h.pm i j hi hj hne
  · rw [hsame]
    rw [sends_portEnable huser i (hlt j hj)] at hs
    simp only [hnc i hi, false_and, decide_false, Bool.or_false, Bool.or_eq_true,
      Bool.and_eq_true, decide_eq_true_eq] at hs
    -- the port sends where it did before, and where its `pm` points to
    obtain hs | ⟨rfl, hpm⟩ := hs
    · exact h.same i j hi hj hne hs
    · exact (h.pm i j hi hj hne).mp hpm
  · rw [hsame] at hb
    rw [sends_portEnable huser i (hlt j hj)]
    by_cases hip : i = port
    · subst hip
      simp [(h.pm i j hi hj hne).mpr hb]
    · rw [enable_portEnable, if_neg hip] at he
      simp [h.sends i j hi hj hne he hb]
  · rw [sends_portEnable huser i (by decide), sends_portEnable huser cpuPort (hlt i hi)]
    by_cases hip : i = port
    · subst hip
      -- the CPU port was in its `pm` or in its register row
      obtain hc | hc := hcpu <;> simp [hc]
    · rw [enable_portEnable, if_neg hip] at he
      obtain ⟨h1, h2⟩ := h.cpu i hi he
      simp [h1, h2]

/-- Disabling a port keeps the invariant. -/
theorem Inv.disable (h : Inv d s) (huser : d.isUserPort port) : Inv d (portDisable s port) := by
  have hlt : ∀ i, d.isUserPort i → i < 32 := fun i hi => by
    have hlt : i < 28 := d.lt_cpuPort i hi
    omega
  have hnc : ∀ i, d.isUserPort i → i ≠ cpuPort := fun i hi => Nat.ne_of_lt (d.lt_cpuPort i hi)
  have hsame : ∀ i j, (portDisable s port).SameBridge i j ↔ s.SameBridge i j := fun i j => by
    unfold Priv.SameBridge
    simp only [bridgeDev_portDisable]
  have hother : ∀ i, ((portDisable s port).ports i).enable → i ≠ port ∧ (s.ports i).enable := by
    intro i he
    rw [enable_portDisable] at he
    split at he
    · cases he
    · next hne => exact ⟨hne, he⟩
  -- a port that is down sends nothing, which only takes away; the others keep their rows
  refine ⟨fun i j hi hj hne => ?_, fun i j hi hj hne hs => ?_, fun i j hi hj hne he hb => ?_,
    fun i hi he => ?_⟩
  · rw [inPm_portDisable, hsame]
    exact h.pm i j hi hj hne
  · rw [hsame]
    rw [sends_portDisable huser i (hlt j hj)] at hs
    simp only [Bool.and_eq_true] at hs
    exact h.same i j hi hj hne hs.1.1
  · rw [hsame] at hb
    obtain ⟨hip, he⟩ := hother i he
    rw [sends_portDisable huser i (hlt j hj)]
    simp [h.sends i j hi hj hne he hb, hnc i hi, hip]
  · obtain ⟨hip, he⟩ := hother i he
    obtain ⟨h1, h2⟩ := h.cpu i hi he
    rw [sends_portDisable huser i (by decide), sends_portDisable huser cpuPort (hlt i hi)]
    simp [h1, h2, hnc i hi, hip, (hnc port huser).symm]

/-- The DSA core changes `bridge_dev` of the port only, which the loops do not look at. -/
private theorem other_setBridgeDev {b : Option β} {i : Nat} :
    Other d (s.setBridgeDev port b) port bridge i ↔
      d.isUserPort i ∧ i ≠ port ∧ (s.ports i).bridgeDev = some bridge := by
  unfold Other
  by_cases hi : i = port
  · simp [hi]
  · simp [bridgeDev_setBridgeDev, hi]

variable [DecidableEq β]

/-- Joining a bridge keeps the invariant. -/
theorem Inv.join (h : Inv d s) (huser : d.isUserPort port)
    (hnone : (s.ports port).bridgeDev = none) :
    Inv d (portBridgeJoin d (s.setBridgeDev port (some bridge)) port bridge) := by
  have hlt : ∀ i, d.isUserPort i → i < 32 := fun i hi => by
    have hlt : i < 28 := d.lt_cpuPort i hi
    omega
  have hnc : ∀ i, d.isUserPort i → i ≠ cpuPort := fun i hi => Nat.ne_of_lt (d.lt_cpuPort i hi)
  have hr : Joined d (s.setBridgeDev port (some bridge)) port bridge _ :=
    portBridgeJoin_spec huser
  generalize portBridgeJoin d (s.setBridgeDev port (some bridge)) port bridge = r at hr
  have henable : ∀ i, (r.ports i).enable = (s.ports i).enable := fun i => by
    rw [hr.enable, enable_setBridgeDev]
  have hbridge : ∀ i, (r.ports i).bridgeDev =
      if i = port then some bridge else (s.ports i).bridgeDev := fun i => by
    rw [hr.bridgeDev, bridgeDev_setBridgeDev]
  -- the pairs that `pm` gained
  have hpm : ∀ i j, d.isUserPort i → d.isUserPort j → i ≠ j → (r.InPm i j ↔ s.InPm i j ∨
      (j = port ∧ (s.ports i).bridgeDev = some bridge) ∨
      (i = port ∧ (s.ports j).bridgeDev = some bridge)) := by
    intro i j hi hj hne
    rw [hr.pm i j (hlt j hj)]
    simp only [Priv.InPm, pm_setBridgeDev, other_setBridgeDev, Bool.or_eq_true, decide_eq_true_eq]
    have hjc := hnc j hj
    grind
  -- and those that the registers gained
  have hsends : ∀ i j, d.isUserPort i → d.isUserPort j → i ≠ j → (r.Sends i j ↔ s.Sends i j ∨
      (j = port ∧ (s.ports i).enable ∧ (s.ports i).bridgeDev = some bridge) ∨
      (i = port ∧ (s.ports i).enable ∧ (s.ports j).bridgeDev = some bridge)) := by
    intro i j hi hj hne
    rw [hr.sends i j (hlt j hj)]
    simp only [sends_setBridgeDev, enable_setBridgeDev, other_setBridgeDev, Bool.or_eq_true,
      decide_eq_true_eq]
    have hic := hnc i hi
    have hjc := hnc j hj
    grind
  -- the port was in no bridge, so a pair with it is new
  have hsame : ∀ i j, i ≠ j → (r.SameBridge i j ↔ s.SameBridge i j ∨
      (j = port ∧ (s.ports i).bridgeDev = some bridge) ∨
      (i = port ∧ (s.ports j).bridgeDev = some bridge)) := by
    intro i j hne
    unfold Priv.SameBridge
    simp only [hbridge]
    grind
  -- each relation grew by the same pairs: the port and the members of its bridge
  refine ⟨fun i j hi hj hne => ?_, fun i j hi hj hne hs => ?_, fun i j hi hj hne he hb => ?_,
    fun i hi he => ?_⟩
  · rw [hpm i j hi hj hne, hsame i j hne, h.pm i j hi hj hne]
  · rw [hsends i j hi hj hne] at hs
    rw [hsame i j hne]
    have hold := h.same i j hi hj hne
    tauto
  · rw [hsame i j hne] at hb
    rw [hsends i j hi hj hne]
    rw [henable] at he
    have hold := h.sends i j hi hj hne he
    tauto
  · rw [henable] at he
    obtain ⟨h1, h2⟩ := h.cpu i hi he
    rw [hr.sends i cpuPort (by decide), hr.sends cpuPort i (hlt i hi), sends_setBridgeDev]
    simp [h1, h2]

/-- Leaving a bridge that has no other member. -/
theorem Inv.leave (h : Inv d s) (huser : d.isUserPort port)
    (hin : (s.ports port).bridgeDev = some bridge)
    (halone : ∀ i, d.isUserPort i → i ≠ port → (s.ports i).bridgeDev ≠ some bridge) :
    Inv d (portBridgeLeave d (s.setBridgeDev port none) port bridge) := by
  have hlt : ∀ i, d.isUserPort i → i < 32 := fun i hi => by
    have hlt : i < 28 := d.lt_cpuPort i hi
    omega
  have hnc : ∀ i, d.isUserPort i → i ≠ cpuPort := fun i hi => Nat.ne_of_lt (d.lt_cpuPort i hi)
  have hr : Left d (s.setBridgeDev port none) port bridge _ := portBridgeLeave_spec huser
  generalize portBridgeLeave d (s.setBridgeDev port none) port bridge = r at hr
  have hnot : ∀ i, ¬Other d (s.setBridgeDev port none) port bridge i := fun i ho => by
    obtain ⟨hi, hne, hb⟩ := other_setBridgeDev.mp ho
    exact halone i hi hne hb
  have henable : ∀ i, (r.ports i).enable = (s.ports i).enable := fun i => by
    rw [hr.enable, enable_setBridgeDev]
  have hpm : ∀ i j, d.isUserPort j → r.InPm i j = s.InPm i j := by
    intro i j hj
    rw [hr.pm i j (hlt j hj)]
    simp [hnot, hnc j hj, Priv.InPm]
  have hsends : ∀ i j, j < 32 → r.Sends i j =
      (s.Sends i j || decide ((s.ports port).enable ∧ i = port ∧ j = cpuPort)) := by
    intro i j hj
    rw [hr.sends i j hj]
    simp [hnot]
  -- nobody shared a bridge with the port, so no pair is lost
  have hsame : ∀ i j, d.isUserPort i → d.isUserPort j → i ≠ j →
      (r.SameBridge i j ↔ s.SameBridge i j) := by
    intro i j hi hj hne
    unfold Priv.SameBridge
    simp only [hr.bridgeDev, bridgeDev_setBridgeDev]
    have hai := halone i hi
    have haj := halone j hj
    grind
  -- the port was alone in its bridge, so no pair of user ports changes
  refine ⟨fun i j hi hj hne => ?_, fun i j hi hj hne hs => ?_, fun i j hi hj hne he hb => ?_,
    fun i hi he => ?_⟩
  · rw [hpm i j hj, hsame i j hi hj hne]
    exact h.pm i j hi hj hne
  · rw [hsends i j (hlt j hj)] at hs
    simp only [hnc j hj, and_false, decide_false, Bool.or_false] at hs
    rw [hsame i j hi hj hne]
    exact h.same i j hi hj hne hs
  · rw [hsame i j hi hj hne] at hb
    rw [henable] at he
    rw [hsends i j (hlt j hj), h.sends i j hi hj hne he hb, Bool.true_or]
  · rw [henable] at he
    obtain ⟨h1, h2⟩ := h.cpu i hi he
    rw [hsends i cpuPort (by decide), hsends cpuPort i (hlt i hi), h1, h2]
    simp

/-- Every harmless request keeps the invariant. -/
theorem Inv.step (h : Inv d s) {q : Request β} (hq : q.Allowed d s) (hok : q.Harmless d s) :
    Inv d (step d s q) := by
  cases q with
  | enable port => exact h.enable hq hok
  | disable port => exact h.disable hq
  | join port bridge => exact h.join hq.1 hq.2
  | leave port bridge => exact h.leave hq.1 hq.2 hok

/-- A request that is not harmless breaks the isolation at once. -/
theorem harmless_of_isolated {q : Request β} (hq : q.Allowed d s)
    (hgood : Isolated d (Bridge.step d s q)) : q.Harmless d s := by
  cases q with
  | enable port =>
    have huser : d.isUserPort port := hq
    have henabled : ((portEnable s port).ports port).enable := by rw [enable_portEnable, if_pos rfl]
    have hcpu := (hgood.cpu port huser henabled).1
    unfold Bridge.step at hcpu
    rw [sends_portEnable huser port (by decide)] at hcpu
    have hne : port ≠ cpuPort := Nat.ne_of_lt (d.lt_cpuPort port huser)
    simp only [hne, false_and, decide_false, Bool.or_false, decide_true, Bool.true_and,
      Bool.or_eq_true] at hcpu
    exact hcpu.symm
  | disable port => trivial
  | join port bridge => trivial
  | leave port bridge =>
    intro i hi hne hb
    have hr : Left d (s.setBridgeDev port none) port bridge _ := portBridgeLeave_spec hq.1
    have hport : port < 32 := by
      have hlt : port < 28 := d.lt_cpuPort port hq.1
      omega
    have hpm : (Bridge.step d s (.leave port bridge)).InPm i port := by
      unfold Bridge.step
      rw [hr.pm i port hport]
      simp [other_setBridgeDev, hi, hne, hb]
    -- a member that stays would have the port in its `pm`, although that has no bridge any more
    obtain ⟨b, -, hnone⟩ := (hgood.pm i port hi hq.1 hne).mp hpm
    unfold Bridge.step at hnone
    rw [hr.bridgeDev, bridgeDev_setBridgeDev, if_pos rfl] at hnone
    cases hnone

/-- The isolation holds after every request of a run exactly if all of them are harmless. -/
theorem run_isolated_iff (d : Dsa) (s : Priv β) (requests : List (Request β)) (hs : Init d s)
    (hallowed : Along (Bridge.step d) (fun s q _ => q.Allowed d s) s requests) :
    Along (Bridge.step d) (fun _ _ s' => Isolated d s') s requests ↔
      Along (Bridge.step d) (fun s q _ => q.Harmless d s) s requests := by
  refine Along.iff_of_invariant (fun s q hinv hq hok => ?_) (fun s q _ hq hgood => ?_)
    hs.inv hallowed
  · have hnext := hinv.step hq hok
    exact ⟨hnext, hnext.isolated⟩
  · exact harmless_of_isolated hq hgood

/-- 28 user ports. -/
def sampleDsa : Dsa where
  isUserPort i := decide (i < 28)
  lt_cpuPort _ h := of_decide_eq_true h

/-- What `rtl83xx_setup` leaves with a PHY on every port. -/
def sampleSetup : Priv Nat where
  ports _ := { enable := false, pm := bitUll 28, bridgeDev := none }
  portIsoCtrl i := if i = 28 then 0x1fffffff#32 else bit32 28 ||| bit32 i

/-- The setup of the examples is an initial state. -/
theorem sampleSetup_init : Init sampleDsa sampleSetup where
  bridge _ _ := rfl
  pm _ _ := rfl
  isolated i j hi hj hne := by
    have hi28 : i < 28 := of_decide_eq_true hi
    have hj28 : j < 28 := of_decide_eq_true hj
    have hi32 : i < 32 := by omega
    have h1 : i ≠ 28 := by omega
    have h2 : j ≠ 28 := by omega
    simp [sampleSetup, h1, h2, getLsbD_bit32 hi32, hne.symm]
  enabled _ _ h := by cases h

/-- Two ports in one bridge. -/
theorem run_isolated_two : Along (Bridge.step sampleDsa) (fun _ _ s' => Isolated sampleDsa s')
    sampleSetup [.join 0 7, .enable 0, .enable 1, .join 1 7] := by
  refine (run_isolated_iff sampleDsa sampleSetup _ sampleSetup_init ?_).mpr ?_
  · exact ⟨⟨rfl, rfl⟩, rfl, rfl, ⟨rfl, by decide +kernel⟩, trivial⟩
  · exact ⟨trivial, Or.inl (by decide +kernel), Or.inl (by decide +kernel), trivial, trivial⟩

/-- Port 1 keeps port 0 in its mask when port 0 leaves their bridge. -/
theorem run_leave_not_isolated : Init sampleDsa sampleSetup ∧
    Along (Bridge.step sampleDsa) (fun s q _ => q.Allowed sampleDsa s) sampleSetup
      [.join 0 7, .join 1 7, .leave 0 7] ∧
    ¬Along (Bridge.step sampleDsa) (fun _ _ s' => Isolated sampleDsa s') sampleSetup
      [.join 0 7, .join 1 7, .leave 0 7] := by
  refine ⟨sampleSetup_init, ?_, fun hgood => ?_⟩
  · exact ⟨⟨rfl, rfl⟩, ⟨rfl, by decide⟩, ⟨rfl, by decide⟩, trivial⟩
  · have hlast := hgood.2.2.1.pm 1 0 rfl rfl (by decide)
    obtain ⟨b, -, hnone⟩ := hlast.mp (by decide +kernel)
    generalize hbr : Port.bridgeDev _ = br at hnone
    have hbr0 : br = none := by
      rw [← hbr]
      decide +kernel
    rw [hbr0] at hnone
    cases hnone

end HandsomeMod.Native.Rtl83xx.Bridge
