import HandsomeMod.Native.Rtl83xxBridge

/-!
# Effect of the bridge port requests

Which bits of the traffic matrix and of the software masks each of the four driver functions
changes. The loops over the other members of the bridge in join and leave are one lemma.
-/

namespace HandsomeMod.Native.Rtl83xx.Bridge

universe u

variable {β : Type u} {d : Dsa} {s : Priv β} {port : Nat} {bridge : β}

/-- The traffic matrix lets port `i` send to port `j`. -/
def Priv.Sends (s : Priv β) (i j : Nat) : Bool := (s.portIsoCtrl i).getLsbD j

/-- The software mask of port `i` has port `j`. -/
def Priv.InPm (s : Priv β) (i j : Nat) : Bool := (s.ports i).pm.getLsbD j

def Priv.SameBridge (s : Priv β) (i j : Nat) : Prop :=
  ∃ b, (s.ports i).bridgeDev = some b ∧ (s.ports j).bridgeDev = some b

/-! ### What the updates change -/

/-- Writing the mask of a port. -/
private theorem sends_trafficSet (m : U64) (k i : Nat) {j : Nat} (hj : j < 32) :
    (s.trafficSet k m).Sends i j = if i = k then m.getLsbD j else s.Sends i j := by
  unfold Priv.Sends Priv.trafficSet
  by_cases h : i = k
  · subst h
    simp [getLsbD_setPortReg _ hj]
  · simp [h]

/-- Adding a port to the mask of another one. -/
private theorem sends_trafficEnable (k : Nat) {dest : Nat} (hd : dest < 32) (i : Nat) {j : Nat}
    (hj : j < 32) :
    (s.trafficEnable k dest).Sends i j = (s.Sends i j || decide (i = k ∧ j = dest)) := by
  unfold Priv.Sends Priv.trafficEnable
  by_cases h : i = k
  · subst h
    have hlt : j < 64 := by omega
    simp [getLsbD_maskPortReg _ _ _ hj, getLsbD_bit32 hd, hlt]
  · simp [h]

/-- Taking a port out of the mask of another one. -/
private theorem sends_trafficDisable (k : Nat) {dest : Nat} (hd : dest < 32) (i : Nat) {j : Nat}
    (hj : j < 32) :
    (s.trafficDisable k dest).Sends i j = (s.Sends i j && !decide (i = k ∧ j = dest)) := by
  unfold Priv.Sends Priv.trafficDisable
  by_cases h : i = k
  · subst h
    have hlt : j < 64 := by omega
    simp [getLsbD_maskPortReg _ _ _ hj, getLsbD_bit32 hd, hlt]
  · simp [h]

/-- Reading the mask of a port. -/
private theorem getLsbD_trafficGet (s : Priv β) (i : Nat) {j : Nat} (hj : j < 32) :
    (s.trafficGet i).getLsbD j = s.Sends i j :=
  getLsbD_getPortReg _ hj

@[simp] theorem ports_trafficSet (m : U64) (k : Nat) :
    (s.trafficSet k m).ports = s.ports := rfl

@[simp] theorem ports_trafficEnable (k dest : Nat) :
    (s.trafficEnable k dest).ports = s.ports := rfl

@[simp] theorem ports_trafficDisable (k dest : Nat) :
    (s.trafficDisable k dest).ports = s.ports := rfl

@[simp] theorem sends_setPm (k : Nat) (m : U64) : (s.setPm k m).Sends = s.Sends := rfl

@[simp] theorem sends_setEnable (k : Nat) (e : Bool) : (s.setEnable k e).Sends = s.Sends := rfl

@[simp] theorem sends_setBridgeDev (k : Nat) (b : Option β) :
    (s.setBridgeDev k b).Sends = s.Sends := rfl

private theorem ports_setPm (k i : Nat) (m : U64) : (s.setPm k m).ports i =
    if i = k then { s.ports k with pm := m } else s.ports i :=
  Function.update_apply _ _ _ _

private theorem ports_setEnable (k i : Nat) (e : Bool) : (s.setEnable k e).ports i =
    if i = k then { s.ports k with enable := e } else s.ports i :=
  Function.update_apply _ _ _ _

private theorem ports_setBridgeDev (k i : Nat) (b : Option β) : (s.setBridgeDev k b).ports i =
    if i = k then { s.ports k with bridgeDev := b } else s.ports i :=
  Function.update_apply _ _ _ _

private theorem pm_setPm (k i : Nat) (m : U64) :
    ((s.setPm k m).ports i).pm = if i = k then m else (s.ports i).pm := by
  by_cases h : i = k <;> simp [ports_setPm, h]

@[simp] theorem enable_setPm (k i : Nat) (m : U64) :
    ((s.setPm k m).ports i).enable = (s.ports i).enable := by
  by_cases h : i = k <;> simp [ports_setPm, h]

@[simp] theorem bridgeDev_setPm (k i : Nat) (m : U64) :
    ((s.setPm k m).ports i).bridgeDev = (s.ports i).bridgeDev := by
  by_cases h : i = k <;> simp [ports_setPm, h]

private theorem enable_setEnable (k i : Nat) (e : Bool) :
    ((s.setEnable k e).ports i).enable = if i = k then e else (s.ports i).enable := by
  by_cases h : i = k <;> simp [ports_setEnable, h]

@[simp] theorem pm_setEnable (k i : Nat) (e : Bool) :
    ((s.setEnable k e).ports i).pm = (s.ports i).pm := by
  by_cases h : i = k <;> simp [ports_setEnable, h]

@[simp] theorem bridgeDev_setEnable (k i : Nat) (e : Bool) :
    ((s.setEnable k e).ports i).bridgeDev = (s.ports i).bridgeDev := by
  by_cases h : i = k <;> simp [ports_setEnable, h]

theorem bridgeDev_setBridgeDev (k i : Nat) (b : Option β) :
    ((s.setBridgeDev k b).ports i).bridgeDev = if i = k then b else (s.ports i).bridgeDev := by
  by_cases h : i = k <;> simp [ports_setBridgeDev, h]

@[simp] theorem pm_setBridgeDev (k i : Nat) (b : Option β) :
    ((s.setBridgeDev k b).ports i).pm = (s.ports i).pm := by
  by_cases h : i = k <;> simp [ports_setBridgeDev, h]

@[simp] theorem enable_setBridgeDev (k i : Nat) (b : Option β) :
    ((s.setBridgeDev k b).ports i).enable = (s.ports i).enable := by
  by_cases h : i = k <;> simp [ports_setBridgeDev, h]

/-! ### Enable and disable -/

/-- Enabling a port lets it reach the ports of its mask, and the CPU port reach it. -/
theorem sends_portEnable (huser : d.isUserPort port) (i : Nat) {j : Nat} (hj : j < 32) :
    (portEnable s port).Sends i j = (s.Sends i j || decide (i = cpuPort ∧ j = port) ||
      (decide (i = port) && s.InPm port j)) := by
  have hlt : port < 28 := d.lt_cpuPort port huser
  have hport : port < 32 := by omega
  unfold portEnable
  rw [sends_trafficSet _ _ _ hj]
  by_cases hi : i = port
  · subst hi
    -- the port's own row gets `pm`
    have hne : i ≠ cpuPort := by unfold cpuPort; omega
    rw [if_pos rfl, BitVec.getLsbD_or, getLsbD_trafficGet _ _ hj,
      sends_trafficEnable _ hport _ hj]
    simp [hne, Priv.InPm]
  · rw [if_neg hi, sends_trafficEnable _ hport _ hj]
    simp [hi]

/-- Enabling a port keeps the masks of the driver. -/
theorem inPm_portEnable (i j : Nat) : (portEnable s port).InPm i j = s.InPm i j := by
  simp [portEnable, Priv.InPm]

/-- The port is enabled. -/
theorem enable_portEnable (i : Nat) :
    ((portEnable s port).ports i).enable = if i = port then true else (s.ports i).enable := by
  simp [portEnable, enable_setEnable]

/-- Enabling a port keeps the bridges. -/
theorem bridgeDev_portEnable (i : Nat) :
    ((portEnable s port).ports i).bridgeDev = (s.ports i).bridgeDev := by
  simp [portEnable]

/-- Disabling a port undoes what enabling it does. -/
theorem sends_portDisable (huser : d.isUserPort port) (i : Nat) {j : Nat} (hj : j < 32) :
    (portDisable s port).Sends i j = (s.Sends i j && !decide (i = cpuPort ∧ j = port) &&
      !(decide (i = port) && s.InPm port j)) := by
  have hlt : port < 28 := d.lt_cpuPort port huser
  have hport : port < 32 := by omega
  unfold portDisable
  rw [sends_setEnable, sends_trafficSet _ _ _ hj]
  by_cases hi : i = port
  · subst hi
    -- the port's own row loses `pm`
    have hne : i ≠ cpuPort := by unfold cpuPort; omega
    have hj64 : j < 64 := by omega
    rw [if_pos rfl, BitVec.getLsbD_and, getLsbD_trafficGet _ _ hj,
      sends_trafficDisable _ hport _ hj, BitVec.getLsbD_not]
    simp [hne, hj64, Priv.InPm]
  · rw [if_neg hi, sends_trafficDisable _ hport _ hj]
    simp [hi]

/-- Disabling a port keeps the masks of the driver. -/
theorem inPm_portDisable (i j : Nat) : (portDisable s port).InPm i j = s.InPm i j := by
  simp [portDisable, Priv.InPm]

/-- The port is disabled. -/
theorem enable_portDisable (i : Nat) :
    ((portDisable s port).ports i).enable = if i = port then false else (s.ports i).enable := by
  simp [portDisable, enable_setEnable]

/-- Disabling a port keeps the bridges. -/
theorem bridgeDev_portDisable (i : Nat) :
    ((portDisable s port).ports i).bridgeDev = (s.ports i).bridgeDev := by
  simp [portDisable]

/-! ### The loops over the other members -/

/-- The ports that the loops of join and leave pick. -/
def Other (d : Dsa) (s : Priv β) (port : Nat) (bridge : β) (i : Nat) : Prop :=
  d.isUserPort i ∧ i ≠ port ∧ (s.ports i).bridgeDev = some bridge

instance [DecidableEq β] (i : Nat) : Decidable (Other d s port bridge i) :=
  inferInstanceAs (Decidable (_ ∧ _ ∧ _))

/-- The other ports of a bridge are ports. -/
private theorem other_lt {i : Nat} (h : Other d s port bridge i) : i < numPorts := by
  have hlt : i < 28 := d.lt_cpuPort i h.1
  unfold numPorts
  omega

/-- The CPU port is not one of them. -/
private theorem not_other_cpuPort : ¬Other d s port bridge cpuPort :=
  fun h => absurd (d.lt_cpuPort cpuPort h.1) (Nat.lt_irrefl cpuPort)

/-- A condition on the other ports of a bridge says that they are ports. -/
private theorem lt_numPorts_and_other {i : Nat} {q : Prop} :
    (i < numPorts ∧ Other d s port bridge i ∧ q) ↔ (Other d s port bridge i ∧ q) :=
  ⟨fun h => h.2, fun h => ⟨other_lt h.1, h⟩⟩

/-- The other ports of a bridge are ports. -/
private theorem lt_numPorts_and_other' {i : Nat} :
    (i < numPorts ∧ Other d s port bridge i) ↔ Other d s port bridge i :=
  ⟨fun h => h.2, fun h => ⟨other_lt h, h⟩⟩

section Loops

variable [DecidableEq β]

/-- What `n` turns of a loop have made of `s` and of the bitmap `m`; `f` sets the bits (join) or
    clears them (leave). Both set the bit of the port in the masks of the other members. -/
structure Looped (f : Bool → Bool → Bool) (d : Dsa) (s : Priv β) (m : U64) (port : Nat)
    (bridge : β) (n : Nat) (r : Priv β × U64) : Prop where
  enable : ∀ i, (r.1.ports i).enable = (s.ports i).enable
  bridgeDev : ∀ i, (r.1.ports i).bridgeDev = (s.ports i).bridgeDev
  pm : ∀ i j, r.1.InPm i j =
    (s.InPm i j || decide (i < n ∧ Other d s port bridge i ∧ j = port))
  sends : ∀ i j, j < 32 → r.1.Sends i j =
    f (s.Sends i j) (decide (i < n ∧ Other d s port bridge i ∧ (s.ports i).enable ∧ j = port))
  bitmap : ∀ j, j < 32 → r.2.getLsbD j =
    f (m.getLsbD j) (decide (j < n ∧ Other d s port bridge j))

namespace Looped

variable {f : Bool → Bool → Bool} {m : U64} {n : Nat} {r : Priv β × U64}

/-- Before the first turn nothing was changed. -/
private theorem zero (hf : ∀ a, f a false = a) : Looped f d s m port bridge 0 (s, m) where
  enable _ := rfl
  bridgeDev _ := rfl
  pm i j := by simp
  sends i j _ := by simp [hf]
  bitmap j _ := by simp [hf]

/-- A port that is not picked. -/
private theorem skip (h : Looped f d s m port bridge n r) (hn : ¬Other d s port bridge n) :
    Looped f d s m port bridge (n + 1) r := by
  -- the range grew by a port that is not picked
  have hiff : ∀ i, (i < n + 1 ∧ Other d s port bridge i) ↔ (i < n ∧ Other d s port bridge i) := by
    intro i
    constructor
    · rintro ⟨hi, ho⟩
      have hne : i ≠ n := fun heq => hn (heq ▸ ho)
      exact ⟨by omega, ho⟩
    · rintro ⟨hi, ho⟩
      exact ⟨by omega, ho⟩
  refine ⟨h.enable, h.bridgeDev, fun i j => ?_, fun i j hj => ?_, fun j hj => ?_⟩
  · rw [h.pm i j]
    simp only [← and_assoc, hiff i]
  · rw [h.sends i j hj]
    simp only [← and_assoc, hiff i]
  · rw [h.bitmap j hj]
    simp only [hiff j]

/-- A member `n` of the bridge: its row of the matrix changes if it is enabled. -/
private theorem pick (hf : ∀ a, f a false = a) (hport : port < 64)
    (h : Looped f d s m port bridge n r)
    (hn : Other d s port bridge n) {p : Priv β} {m' : U64} (hports : p.ports = r.1.ports)
    (hsends : ∀ i j, j < 32 →
      p.Sends i j = f (r.1.Sends i j) (decide (i = n ∧ (s.ports n).enable ∧ j = port)))
    (hm : ∀ j, j < 32 → m'.getLsbD j = f (r.2.getLsbD j) (decide (j = n))) :
    Looped f d s m port bridge (n + 1) (p.setPm n ((p.ports n).pm ||| bitUll port), m') := by
  have hlt : ∀ i, i ≠ n → (i < n + 1 ↔ i < n) := fun i hi => by omega
  -- the turn writes the row of port `n` only, so each bit is that of the turn before or of `n`
  refine ⟨fun i => ?_, fun i => ?_, fun i j => ?_, fun i j hj => ?_, fun j hj => ?_⟩
  · rw [enable_setPm, hports, h.enable]
  · rw [bridgeDev_setPm, hports, h.bridgeDev]
  · have hold := h.pm i j
    unfold Priv.InPm at hold ⊢
    rw [pm_setPm, hports]
    by_cases hi : i = n
    · subst hi
      simp [getLsbD_bitUll hport, hold, hn]
    · simp [hi, hold, hlt i hi]
  · show p.Sends i j = _
    rw [hsends i j hj, h.sends i j hj]
    by_cases hi : i = n
    · subst hi
      simp [hf, hn]
    · simp [hf, hi, hlt i hi]
  · show m'.getLsbD j = _
    rw [hm j hj, h.bitmap j hj]
    by_cases hj' : j = n
    · subst hj'
      simp [hf, hn]
    · simp [hf, hj', hlt j hj']

end Looped

/-- A loop whose turns pick the other members and leave out all other ports. -/
private theorem looped_foldl {f : Bool → Bool → Bool} (hf : ∀ a, f a false = a) (hport : port < 64)
    {g : Priv β × U64 → Nat → Priv β × U64}
    (hskip : ∀ r i, ¬Other d r.1 port bridge i → g r i = r)
    (hpick : ∀ r i, Other d r.1 port bridge i → ∃ (p : Priv β) (m' : U64),
      g r i = (p.setPm i ((p.ports i).pm ||| bitUll port), m') ∧ p.ports = r.1.ports ∧
      (∀ k j, j < 32 →
        p.Sends k j = f (r.1.Sends k j) (decide (k = i ∧ (r.1.ports i).enable ∧ j = port))) ∧
      ∀ j, j < 32 → m'.getLsbD j = f (r.2.getLsbD j) (decide (j = i)))
    (m : U64) (n : Nat) : Looped f d s m port bridge n ((List.range n).foldl g (s, m)) := by
  induction n with
  | zero => exact .zero hf
  | succ n ih =>
    rw [List.range_succ, List.foldl_append, List.foldl_cons, List.foldl_nil]
    generalize (List.range n).foldl g (s, m) = r at ih
    -- the loop does not change bridges, so the pick is that of the state before it
    have hiff : Other d r.1 port bridge n ↔ Other d s port bridge n := by
      unfold Other
      rw [ih.bridgeDev n]
    by_cases hn : Other d r.1 port bridge n
    · obtain ⟨p, m', heq, hports, hsends, hm⟩ := hpick r n hn
      rw [ih.enable n] at hsends
      rw [heq]
      exact ih.pick hf hport (hiff.mp hn) hports hsends hm
    · rw [hskip r n hn]
      exact ih.skip (fun h => hn (hiff.mpr h))

/-- Everything that the loop of join changes. -/
theorem joinLoop_spec (hport : port < 32) (m : U64) (n : Nat) :
    Looped or d s m port bridge n ((List.range n).foldl (joinOther d port bridge) (s, m)) := by
  refine looped_foldl Bool.or_false (by omega) (fun r i hi => ?_) (fun r i hi => ?_) m n
  · unfold joinOther
    split
    · next huser => rw [if_pos fun hbridge => hi ⟨huser.1, huser.2, hbridge⟩]
    · rfl
  · have hlt : i < 28 := d.lt_cpuPort i hi.1
    have hlt64 : i < 64 := by omega
    unfold joinOther
    rw [if_pos ⟨hi.1, hi.2.1⟩, if_neg (by simp [hi.2.2])]
    refine ⟨_, _, rfl, ?_, fun k j hj => ?_, fun j hj => ?_⟩
    · split <;> rfl
    · split
      · next he => simp [sends_trafficEnable i hport k hj, he]
      · next he => simp [he]
    · rw [BitVec.getLsbD_or, getLsbD_bitUll hlt64]

/-- Everything that the loop of leave changes. -/
theorem leaveLoop_spec (hport : port < 32) (m : U64) (n : Nat) :
    Looped (fun a b => a && !b) d s m port bridge n
      ((List.range n).foldl (leaveOther d port bridge) (s, m)) := by
  -- a port of no bridge or of another one is passed over, the others lose the port from their
  -- masks
  refine looped_foldl (by simp) (by omega) (fun r i hi => ?_) (fun r i hi => ?_) m n
  · unfold leaveOther
    split
    · next huser => rw [if_pos fun hbridge => hi ⟨huser.1, huser.2, hbridge⟩]
    · rfl
  · have hlt : i < 28 := d.lt_cpuPort i hi.1
    have hlt64 : i < 64 := by omega
    unfold leaveOther
    rw [if_pos ⟨hi.1, hi.2.1⟩, if_neg (by simp [hi.2.2])]
    refine ⟨_, _, rfl, ?_, fun k j hj => ?_, fun j hj => ?_⟩
    · split <;> rfl
    · split
      · next he => simp [sends_trafficDisable i hport k hj, he]
      · next he => simp [he]
    · have hj64 : j < 64 := by omega
      rw [BitVec.getLsbD_and, BitVec.getLsbD_not, getLsbD_bitUll hlt64]
      simp [hj64]

/-! ### Join and leave -/

/-- What `rtl83xx_port_bridge_join` does. -/
structure Joined (d : Dsa) (s : Priv β) (port : Nat) (bridge : β) (r : Priv β) : Prop where
  enable : ∀ i, (r.ports i).enable = (s.ports i).enable
  bridgeDev : ∀ i, (r.ports i).bridgeDev = (s.ports i).bridgeDev
  pm : ∀ i j, j < 32 → r.InPm i j = (s.InPm i j ||
    decide (Other d s port bridge i ∧ j = port) ||
    decide (i = port ∧ (j = cpuPort ∨ Other d s port bridge j)))
  sends : ∀ i j, j < 32 → r.Sends i j = (s.Sends i j ||
    decide (Other d s port bridge i ∧ (s.ports i).enable ∧ j = port) ||
    decide ((s.ports port).enable ∧ i = cpuPort ∧ j = port) ||
    decide ((s.ports port).enable ∧ i = port ∧ (j = cpuPort ∨ Other d s port bridge j)))

/-- What joining a bridge does. -/
theorem portBridgeJoin_spec (huser : d.isUserPort port) :
    Joined d s port bridge (portBridgeJoin d s port bridge) := by
  have hlt : port < 28 := d.lt_cpuPort port huser
  have hport : port < 32 := by omega
  have hne : port ≠ cpuPort := by unfold cpuPort; omega
  have h : Looped or d s (bitUll cpuPort) port bridge numPorts _ := joinLoop_spec hport _ _
  unfold portBridgeJoin
  generalize (List.range numPorts).foldl (joinOther d port bridge) (s, bitUll cpuPort) = r at h
  obtain ⟨p, m⟩ := r
  have henable : ∀ i, (p.ports i).enable = (s.ports i).enable := h.enable
  have hbridge : ∀ i, (p.ports i).bridgeDev = (s.ports i).bridgeDev := h.bridgeDev
  -- every other member gains the port
  have hpm : ∀ i j, p.InPm i j =
      (s.InPm i j || decide (Other d s port bridge i ∧ j = port)) := by
    intro i j
    rw [h.pm i j]
    simp only [lt_numPorts_and_other]
  have hsends : ∀ i j, j < 32 → p.Sends i j = (s.Sends i j ||
      decide (Other d s port bridge i ∧ (s.ports i).enable ∧ j = port)) := by
    intro i j hj
    rw [h.sends i j hj]
    simp only [lt_numPorts_and_other]
  -- the bitmap holds the CPU port and the other members of the bridge
  have hm : ∀ j, j < 32 → m.getLsbD j = decide (j = cpuPort ∨ Other d s port bridge j) := by
    intro j hj
    rw [h.bitmap j hj, getLsbD_bitUll (by decide), Bool.decide_or]
    simp only [lt_numPorts_and_other']
  dsimp only
  generalize hq : (if (p.ports port).enable = true then
    (p.trafficEnable cpuPort port).trafficSet port
      ((p.trafficEnable cpuPort port).trafficGet port ||| m) else p) = q
  have hports : q.ports = p.ports := by
    rw [← hq]
    split <;> rfl
  refine ⟨fun i => ?_, fun i => ?_, fun i j hj => ?_, fun i j hj => ?_⟩
  · rw [enable_setPm, hports, henable]
  · rw [bridgeDev_setPm, hports, hbridge]
  · have hold := hpm i j
    unfold Priv.InPm at hold ⊢
    rw [pm_setPm, hports]
    by_cases hi : i = port
    · subst hi
      simp [hold, hm j hj]
    · simp [hold, hi]
  -- the register row of the port itself is written behind the loop
  · show q.Sends i j = _
    rw [← hq, henable port]
    split
    · next he =>
      rw [sends_trafficSet _ _ _ hj]
      by_cases hi : i = port
      · subst hi
        simp [getLsbD_trafficGet _ _ hj, sends_trafficEnable _ hport _ hj, hsends _ _ hj, hm j hj,
          hne, he]
      · simp [sends_trafficEnable _ hport _ hj, hsends _ _ hj, hi, he]
    · next he => simp [hsends _ _ hj, he]

/-- What `rtl83xx_port_bridge_leave` does: the other members keep the port in their mask, and the
    port keeps all of them in its row of the matrix. -/
structure Left (d : Dsa) (s : Priv β) (port : Nat) (bridge : β) (r : Priv β) : Prop where
  enable : ∀ i, (r.ports i).enable = (s.ports i).enable
  bridgeDev : ∀ i, (r.ports i).bridgeDev = (s.ports i).bridgeDev
  pm : ∀ i j, j < 32 → r.InPm i j =
    ((s.InPm i j || decide (Other d s port bridge i ∧ j = port)) &&
      !decide (i = port ∧ j = cpuPort))
  sends : ∀ i j, j < 32 → r.Sends i j =
    ((s.Sends i j && !decide (Other d s port bridge i ∧ (s.ports i).enable ∧ j = port)) ||
      decide ((s.ports port).enable ∧ i = port ∧ j = cpuPort))

/-- What leaving a bridge does. -/
theorem portBridgeLeave_spec (huser : d.isUserPort port) :
    Left d s port bridge (portBridgeLeave d s port bridge) := by
  have hlt : port < 28 := d.lt_cpuPort port huser
  have hport : port < 32 := by omega
  have h : Looped (fun a b => a && !b) d s (bitUll cpuPort) port bridge numPorts _ :=
    leaveLoop_spec hport _ _
  unfold portBridgeLeave
  generalize (List.range numPorts).foldl (leaveOther d port bridge) (s, bitUll cpuPort) = r at h
  obtain ⟨p, m⟩ := r
  have henable : ∀ i, (p.ports i).enable = (s.ports i).enable := h.enable
  have hbridge : ∀ i, (p.ports i).bridgeDev = (s.ports i).bridgeDev := h.bridgeDev
  -- `leave` sets the bit in `pm` of the others, where it should clear it
  have hpm : ∀ i j, p.InPm i j =
      (s.InPm i j || decide (Other d s port bridge i ∧ j = port)) := by
    intro i j
    rw [h.pm i j]
    simp only [lt_numPorts_and_other]
  have hsends : ∀ i j, j < 32 → p.Sends i j = (s.Sends i j &&
      !decide (Other d s port bridge i ∧ (s.ports i).enable ∧ j = port)) := by
    intro i j hj
    rw [h.sends i j hj]
    simp only [lt_numPorts_and_other]
  -- The bitmap has only the CPU port: the loop clears bits that were never set.
  have hm : ∀ j, j < 32 → m.getLsbD j = decide (j = cpuPort) := by
    intro j hj
    rw [h.bitmap j hj, getLsbD_bitUll (by decide)]
    by_cases hj : j = cpuPort
    · subst hj
      simp [not_other_cpuPort]
    · simp [hj]
  dsimp only
  generalize hq : (if (p.ports port).enable = true then
    p.trafficSet port (p.trafficGet port ||| m) else p) = q
  have hports : q.ports = p.ports := by
    rw [← hq]
    split <;> rfl
  refine ⟨fun i => ?_, fun i => ?_, fun i j hj => ?_, fun i j hj => ?_⟩
  · rw [enable_setPm, hports, henable]
  · rw [bridgeDev_setPm, hports, hbridge]
  -- `pm` of the others gains the port, as in the join; its own `pm` loses the bitmap only
  · have hold := hpm i j
    unfold Priv.InPm at hold ⊢
    rw [pm_setPm, hports]
    by_cases hi : i = port
    · subst hi
      have hj64 : j < 64 := by omega
      rw [if_pos rfl, BitVec.getLsbD_and, BitVec.getLsbD_not, hold, hm j hj]
      simp [hj64]
    · simp [hold, hi]
  · show q.Sends i j = _
    rw [← hq, henable port]
    split
    · next he =>
      rw [sends_trafficSet _ _ _ hj]
      by_cases hi : i = port
      · subst hi
        simp [getLsbD_trafficGet _ _ hj, hsends _ _ hj, hm j hj, he]
      · simp [hsends _ _ hj, hi]
    · next he => simp [hsends _ _ hj, he]

end Loops

end HandsomeMod.Native.Rtl83xx.Bridge
