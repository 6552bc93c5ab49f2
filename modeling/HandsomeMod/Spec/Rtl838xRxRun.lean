import HandsomeMod.ForStd.Run
import HandsomeMod.Spec.Rtl838xRxRing

/-!
# Runs of the receive rings

The switch completes slots at any time, also while the driver is in one of its loops. Every frame is
taken once and in order as long as no allocation fails: `skb_reserve` comes before the test for
`NULL`.
-/

namespace HandsomeMod.Native.Rtl838x.Rx

open HandsomeMod.ForStd

variable {g : Cfg}

/-- A call of `rtl838x_hw_receive` that has returned: its budget, the frames that it took and its
    result. -/
structure CallRecord where
  budget : Nat
  handled : Nat
  workDone : Nat

inductive Phase where
  | idle
  /-- In the loop of `rtl838x_hw_receive` for ring `r`, with `work_done`; `start` frames were taken
      before the call. -/
  | receive (r budget workDone start : Nat) (dsa : Bool)
  /-- In the loop of `rtl838x_rb_cleanup` for ring `r`, with its `last`. -/
  | cleanup (r last : Nat)
  /-- The kernel has stopped. -/
  | oops
  deriving DecidableEq

/-- The driver and the switch. -/
structure Sys where
  priv : Priv
  /-- The slot that the switch uses next, which `dma_if_rx_cur` points to. -/
  hw : Nat → Nat
  phase : Phase
  /-- The frames that the switch has completed. -/
  completed : Nat → List Frame
  /-- The frames that the driver has taken, with their rings. -/
  log : List (Nat × Item)
  calls : List CallRecord

inductive Step where
  /-- The switch completes a slot, if it has one. -/
  | complete (r : Nat) (f : Frame)
  | receive (r budget : Nat) (dsa : Bool)
  | cleanup
  /-- A turn of the loop of the driver; `alloc` is whether `alloc_skb` succeeds. -/
  | turn (alloc : Bool)

def Sys.complete (s : Sys) (r : Nat) (f : Frame) : Sys :=
  if s.priv.Owned r (s.hw r) then
    { s with
      priv := Rx.complete s.priv r (s.hw r) f
      hw := Function.update s.hw r (hwNext s.priv r (s.hw r))
      completed := Function.update s.completed r (s.completed r ++ [f]) }
  else s

/-- The call of `rtl838x_hw_receive` returns. -/
def Sys.callReturns (s : Sys) (budget workDone start : Nat) : Sys :=
  { s with
    phase := .idle
    calls := s.calls ++
      [{ budget := budget, handled := s.log.length - start, workDone := workDone }] }

/-- `rtl838x_rb_cleanup` goes on with the next ring. -/
def Sys.nextRing (g : Cfg) (s : Sys) (r : Nat) : Sys :=
  { s with phase := if r < g.rxrings then .cleanup r (s.hw r) else .idle }

def Sys.receiveTurn (g : Cfg) (s : Sys) (r budget workDone start : Nat) (dsa alloc : Bool) : Sys :=
  match Rx.receiveTurn g s.priv r dsa alloc with
  | .stop => s.callReturns budget workDone start
  | .oops => { s with phase := .oops }
  | .took p data =>
    let item := match data with
      | some data => Item.handedUp dsa data
      | none => .dropped
    let s := { s with priv := p, log := s.log ++ [(r, item)] }
    -- `last` is read again
    if p.cRx r ≠ s.hw r ∧ workDone + 1 < budget then
      { s with phase := .receive r budget (workDone + 1) start dsa }
    else s.callReturns budget (workDone + 1) start

def Sys.cleanupTurn (g : Cfg) (s : Sys) (r last : Nat) : Sys :=
  match Rx.cleanupTurn g s.priv r with
  | none => s.nextRing g (r + 1)
  | some p =>
    let s := { s with priv := p, log := s.log ++ [(r, Item.discarded)] }
    if p.cRx r ≠ last then s else s.nextRing g (r + 1)

/-- `priv->lock` is held during a call. -/
def step (g : Cfg) (s : Sys) : Step → Sys
  | .complete r f => s.complete r f
  | .receive r budget dsa =>
    match s.phase with
    | .idle => { s with phase := .receive r budget 0 s.log.length dsa }
    | _ => s
  | .cleanup =>
    match s.phase with
    | .idle => s.nextRing g 0
    | _ => s
  | .turn alloc =>
    match s.phase with
    | .receive r budget workDone start dsa => s.receiveTurn g r budget workDone start dsa alloc
    | .cleanup r last => s.cleanupTurn g r last
    | _ => s

/-- The rings that there are, and a budget of at least one. -/
def Step.Allowed (g : Cfg) : Step → Prop
  | .complete r _ => r < g.rxrings
  | .receive r budget _ => r < g.rxrings ∧ 1 ≤ budget
  | _ => True

/-! ### What is to hold -/

/-- What became of the frames of a ring, in the order in which they were taken. -/
def Sys.items (s : Sys) (r : Nat) : List Item :=
  (s.log.filter fun e => decide (e.1 = r)).map Prod.snd

def Item.isHandedUp : Item → Bool
  | .handedUp _ _ => true
  | _ => false

def Item.isDropped : Item → Bool
  | .dropped => true
  | _ => false

/-- The frames that were taken are the first ones, each with what became of it; the others still wait
    in their slots. -/
structure FramesOnce (g : Cfg) (s : Sys) (r : Nat) : Prop where
  le : (s.items r).length ≤ (s.completed r).length
  taken : ∀ (i : Nat) (item : Item) (f : Frame), (s.items r)[i]? = some item →
    (s.completed r)[i]? = some f → item.Matches g.family f
  next : s.priv.cRx r = (s.items r).length % g.rxringlen
  waiting : ∀ (i : Nat) (f : Frame), (s.items r).length ≤ i → (s.completed r)[i]? = some f →
    ¬s.priv.Owned r (i % g.rxringlen) ∧
    bytesAt s.priv.mem (g.bufAddr r (i % g.rxringlen)).toNat f.bytes.length = f.bytes

/-- A slot of the switch is as `rtl838x_setup_ring_buffer` left it in `p0`. -/
structure Armed (g : Cfg) (p0 p : Priv) (r j : Nat) : Prop where
  header : p.rxHeader r j = (setupRingBuffer g p0).rxHeader r j
  word : p.rxR r j = (setupRingBuffer g p0).rxR r j
  wrap_iff : p.rxR r j &&& wrap ≠ 0#32 ↔ j = g.rxringlen - 1

/-- What a turn of a call in the loop does if the allocation succeeds. -/
structure Progress (g : Cfg) (s : Sys) : Prop where
  /-- The frame that has waited longest is taken. -/
  takes : ∀ r budget workDone start dsa, s.phase = .receive r budget workDone start dsa →
    (s.items r).length < (s.completed r).length →
    ((s.receiveTurn g r budget workDone start dsa true).items r).length = (s.items r).length + 1
  /-- The call ends, or `work_done` goes up by one. -/
  goesOn : ∀ r budget workDone start dsa, s.phase = .receive r budget workDone start dsa →
    (s.receiveTurn g r budget workDone start dsa true).phase = .idle ∨
    (s.receiveTurn g r budget workDone start dsa true).phase =
      .receive r budget (workDone + 1) start dsa
  /-- A call that ends below its budget has taken all the frames of its ring. -/
  drains : ∀ r budget workDone start dsa, s.phase = .receive r budget workDone start dsa →
    (s.receiveTurn g r budget workDone start dsa true).phase = .idle → workDone + 1 < budget →
    ((s.receiveTurn g r budget workDone start dsa true).items r).length = (s.completed r).length

/-- What is to hold after every step since the setup of `p0`. -/
structure Good (g : Cfg) (p0 : Priv) (s : Sys) : Prop where
  frames : ∀ r < g.rxrings, FramesOnce g s r
  packets : s.priv.rxPackets = p0.rxPackets + s.log.countP fun e => e.2.isHandedUp
  dropped : s.priv.rxDropped = p0.rxDropped + s.log.countP fun e => e.2.isDropped
  budget : ∀ c ∈ s.calls, c.workDone = c.handled ∧ c.handled ≤ c.budget
  running : ∀ r budget workDone start dsa, s.phase = .receive r budget workDone start dsa →
    s.log.length - start = workDone ∧ workDone < budget
  no_oops : s.phase ≠ .oops
  armed : ∀ r < g.rxrings, ∀ j < g.rxringlen, s.priv.Owned r j → Armed g p0 s.priv r j
  progress : Progress g s

/-- A turn is harmless if the allocation for a frame succeeds. -/
def Harmless (s : Sys) : Step → Prop
  | .turn alloc => ∀ r budget workDone start dsa, s.phase = .receive r budget workDone start dsa →
      ¬s.priv.Owned r (s.priv.cRx r) → alloc = true
  | _ => True

/-! ### The invariant -/

structure Inv (g : Cfg) (p0 : Priv) (s : Sys) : Prop where
  ring : ∀ r < g.rxrings, RingOk g s.priv r (s.hw r) (s.completed r) (s.items r)
  packets : s.priv.rxPackets = p0.rxPackets + s.log.countP fun e => e.2.isHandedUp
  dropped : s.priv.rxDropped = p0.rxDropped + s.log.countP fun e => e.2.isDropped
  budget : ∀ c ∈ s.calls, c.workDone = c.handled ∧ c.handled ≤ c.budget
  receive : ∀ r budget workDone start dsa, s.phase = .receive r budget workDone start dsa →
    r < g.rxrings ∧ s.log.length = start + workDone ∧ workDone < budget
  cleanup : ∀ r last, s.phase = .cleanup r last → r < g.rxrings
  no_oops : s.phase ≠ .oops

variable {p0 : Priv} {s : Sys}

/-- A frame that is taken goes to its ring. -/
private theorem items_append (s : Sys) (p : Priv) (r r' : Nat) (item : Item) :
    ({ s with priv := p, log := s.log ++ [(r, item)] } : Sys).items r' =
      if r' = r then s.items r' ++ [item] else s.items r' := by
  unfold Sys.items
  dsimp only
  rw [List.filter_append, List.map_append]
  by_cases hr : r' = r
  · subst hr
    simp
  · simp [hr, Ne.symm hr]

/-- The frame that waits at the position of the driver. -/
theorem RingOk.exists_frame {p : Priv} {r hw : Nat} {completed : List Frame} {items : List Item}
    (h : RingOk g p r hw completed items) (hnot : ¬p.Owned r (p.cRx r)) :
    ∃ f, completed[items.length]? = some f ∧
      p.rxHeader r (p.cRx r) = f.header (g.bufAddr r (p.cRx r)) ∧
      bytesAt p.mem (g.bufAddr r (p.cRx r)).toNat f.bytes.length = f.bytes := by
  have hle := h.items_le
  rw [h.owned_cRx_iff] at hnot
  have hlt : items.length < completed.length := by omega
  have hf := List.getElem?_eq_getElem hlt
  obtain ⟨-, hheader, hbytes⟩ := h.waiting items.length _ (Nat.le_refl _) hf
  rw [h.cRx]
  exact ⟨_, hf, hheader, hbytes⟩

/-- A turn of a call finds nothing and ends it, or takes a frame and ends it at the budget or when
    `c_rx` has caught up with the switch. -/
private theorem Inv.turn_cases (h : Inv g p0 s) {r budget workDone start : Nat} {dsa : Bool}
    (hphase : s.phase = .receive r budget workDone start dsa) :
    let t := s.receiveTurn g r budget workDone start dsa true
    (t.phase = .idle ∧ (t.items r).length = (s.items r).length ∧
      (s.items r).length = (s.completed r).length) ∨
    ((t.items r).length = (s.items r).length + 1 ∧
      (t.phase = .receive r budget (workDone + 1) start dsa ∨
        t.phase = .idle ∧
          (workDone + 1 < budget → (s.items r).length + 1 = (s.completed r).length))) := by
  obtain ⟨hr, -, -⟩ := h.receive r budget workDone start dsa hphase
  have hring := h.ring r hr
  unfold Sys.receiveTurn
  by_cases howned : s.priv.Owned r (s.priv.cRx r)
  · rw [receiveTurn_owned howned]
    exact Or.inl ⟨rfl, rfl, hring.owned_cRx_iff.mp howned⟩
  · obtain ⟨f, hf, hheader, hbytes⟩ := hring.exists_frame howned
    rw [receiveTurn_frame howned hheader hbytes, if_pos rfl]
    have hlt := (List.getElem?_eq_some_iff.mp hf).1
    -- the log has one item more, whatever the phase
    have hitems : ∀ (t : Sys) (item : Item), t.log = s.log ++ [(r, item)] →
        (t.items r).length = (s.items r).length + 1 := by
      intro t item hlog
      unfold Sys.items
      rw [hlog, List.filter_append, List.map_append, List.length_append]
      simp
    right
    dsimp only
    split
    · exact ⟨hitems _ _ rfl, Or.inl rfl⟩
    · next hleave =>
      refine ⟨hitems _ _ rfl, Or.inr ⟨rfl, fun hbudget => ?_⟩⟩
      -- the two positions agree, and the ring is not full after a frame was taken
      have hle := hring.completed_le
      have hcatch : (s.priv.cRx r + 1) % g.rxringlen = s.hw r := by
        by_contra hne
        refine hleave ⟨?_, hbudget⟩
        show Function.update s.priv.cRx r _ r ≠ _
        rwa [Function.update_self]
      rw [hring.cRx, hring.hw, Nat.mod_add_mod] at hcatch
      exact Ring.eq_of_mod_eq hcatch (by omega) (by omega)

/-- The invariant says what is promised about a turn. -/
theorem Inv.progress (h : Inv g p0 s) : Progress g s where
  takes r budget workDone start dsa hphase hlt := by
    obtain ⟨-, -, heq⟩ | ⟨hitems, -⟩ := h.turn_cases hphase
    · exact absurd heq hlt.ne
    · exact hitems
  goesOn r budget workDone start dsa hphase := by
    obtain ⟨hidle, -, -⟩ | ⟨-, hmore | ⟨hidle, -⟩⟩ := h.turn_cases hphase
    · exact Or.inl hidle
    · exact Or.inr hmore
    · exact Or.inl hidle
  drains r budget workDone start dsa hphase hend hbudget := by
    obtain ⟨-, hitems, heq⟩ | ⟨hitems, hmore | ⟨-, hall⟩⟩ := h.turn_cases hphase
    · exact hitems.trans heq
    · rw [hend] at hmore
      cases hmore
    · exact hitems.trans (hall hbudget)

/-- The invariant says what is promised about a step. -/
theorem Inv.good (h : Inv g p0 s) : Good g p0 s where
  frames r hr := by
    have hring := h.ring r hr
    refine ⟨hring.items_le, hring.inOrder, hring.cRx, fun i f hi hf => ?_⟩
    obtain ⟨-, -, hbytes⟩ := hring.waiting i f hi hf
    have hlt := (List.getElem?_eq_some_iff.mp hf).1
    have hle := hring.completed_le
    refine ⟨fun howned => ?_, hbytes⟩
    exact absurd ((hring.owned_iff hi (by omega)).mp howned) (Nat.not_le.mpr hlt)
  packets := h.packets
  dropped := h.dropped
  budget := h.budget
  running r budget workDone start dsa hphase := by
    obtain ⟨-, hlen, hlt⟩ := h.receive r budget workDone start dsa hphase
    exact ⟨by omega, hlt⟩
  no_oops := h.no_oops
  armed r hr j hj howned := by
    obtain ⟨hword, hheader⟩ := (h.ring r hr).armed hj howned
    exact ⟨hheader, hword, by rw [hword]; exact word_and_wrap g r j⟩
  progress := h.progress

/-- A frame is taken from ring `r`. -/
theorem Inv.ring_take (h : Inv g p0 s) {r : Nat} (hr : r < g.rxrings) {f : Frame}
    (hf : (s.completed r)[(s.items r).length]? = some f) {item : Item}
    (hitem : item.Matches g.family f) {p : Priv}
    (hR : p.rxR = (rearm g s.priv r (g.bufAddr r (s.priv.cRx r))).rxR)
    (hheader : p.rxHeader = (rearm g s.priv r (g.bufAddr r (s.priv.cRx r))).rxHeader)
    (hc : p.cRx = (rearm g s.priv r (g.bufAddr r (s.priv.cRx r))).cRx) (hmem : p.mem = s.priv.mem)
    {r' : Nat} (hr' : r' < g.rxrings) :
    RingOk g p r' (s.hw r') (s.completed r')
      (({ s with priv := p, log := s.log ++ [(r, item)] } : Sys).items r') := by
  rw [items_append]
  -- the ring of the frame is armed again, the others are as they were
  by_cases hrr : r' = r
  · subst hrr
    rw [if_pos rfl]
    refine ((h.ring r' hr).rearm hf hitem).congr (by rw [hR]) (by rw [hheader]) (by rw [hc])
      fun j _ n _ => ?_
    rw [hmem]
    rfl
  · rw [if_neg hrr]
    refine (h.ring r' hr').congr ?_ ?_ ?_ fun j _ n _ => by rw [hmem]
    · rw [hR]
      exact Function.update_of_ne hrr _ _
    · rw [hheader]
      exact Function.update_of_ne hrr _ _
    · rw [hc]
      exact Function.update_of_ne hrr _ _

/-- The switch keeps the invariant. -/
theorem Inv.complete (h : Inv g p0 s) {r : Nat} (hr : r < g.rxrings) (f : Frame) :
    Inv g p0 (s.complete r f) := by
  unfold Sys.complete
  split
  · next howned =>
    refine ⟨fun r' hr' => ?_, h.packets, h.dropped, h.budget, h.receive, h.cleanup, h.no_oops⟩
    dsimp only
    by_cases hrr : r' = r
    · subst hrr
      rw [Function.update_self, Function.update_self]
      exact (h.ring r' hr).complete hr howned f
    · rw [Function.update_of_ne hrr, Function.update_of_ne hrr]
      have hring := h.ring r hr
      -- the buffer written to is one of ring `r`, those of the other rings lie apart
      have hbuf : (s.priv.rxHeader r (s.hw r)).buf = g.bufAddr r (s.hw r) := by
        have hroom := hring.owned_hw_iff.mp howned
        obtain ⟨-, hheader⟩ := hring.free _ (Nat.le_refl _) hroom
        rw [hring.hw, hheader]
        rfl
      have hhw : s.hw r < g.rxringlen := by
        rw [hring.hw]
        exact Nat.mod_lt _ g.rxringlen_pos
      refine (h.ring r' hr').congr (Function.update_of_ne hrr _ _) (Function.update_of_ne hrr _ _)
        rfl fun j hj n hn => ?_
      unfold Rx.complete
      dsimp only
      rw [hbuf]
      exact bytesAt_bufAddr_write hr' hj hr hhw (fun hx => hrr hx.1) _ f.le_ringBuffer hn
  · exact h

/-- The end of a call keeps the invariant. -/
theorem Inv.callReturns (h : Inv g p0 s) {budget workDone start : Nat}
    (hlen : s.log.length = start + workDone) (hle : workDone ≤ budget) :
    Inv g p0 (s.callReturns budget workDone start) where
  ring := h.ring
  packets := h.packets
  dropped := h.dropped
  budget c hc := by
    obtain hc | hc := List.mem_append.mp hc
    · exact h.budget c hc
    · obtain rfl := List.mem_singleton.mp hc
      dsimp only
      omega
  receive _ _ _ _ _ hphase := by cases hphase
  cleanup _ _ hphase := by cases hphase
  no_oops hphase := by cases hphase

/-- Going on with the next ring keeps the invariant. -/
theorem Inv.nextRing (h : Inv g p0 s) (r : Nat) : Inv g p0 (s.nextRing g r) where
  ring := h.ring
  packets := h.packets
  dropped := h.dropped
  budget := h.budget
  receive r' budget workDone start dsa hphase := by
    unfold Sys.nextRing at hphase
    dsimp only at hphase
    split at hphase <;> cases hphase
  cleanup r' last hphase := by
    unfold Sys.nextRing at hphase
    dsimp only at hphase
    split at hphase
    · next hr =>
      cases hphase
      exact hr
    · cases hphase
  no_oops hphase := by
    unfold Sys.nextRing at hphase
    dsimp only at hphase
    split at hphase <;> cases hphase

/-- After a frame was taken, in a phase `ph` that fits. -/
theorem Inv.taken (h : Inv g p0 s) (p : Priv) (item : Item) (ph : Phase) {r : Nat}
    (hr : r < g.rxrings) {f : Frame} (hf : (s.completed r)[(s.items r).length]? = some f)
    (hitem : item.Matches g.family f)
    (hR : p.rxR = (rearm g s.priv r (g.bufAddr r (s.priv.cRx r))).rxR)
    (hheader : p.rxHeader = (rearm g s.priv r (g.bufAddr r (s.priv.cRx r))).rxHeader)
    (hc : p.cRx = (rearm g s.priv r (g.bufAddr r (s.priv.cRx r))).cRx) (hmem : p.mem = s.priv.mem)
    (hpackets : p.rxPackets = s.priv.rxPackets + if item.isHandedUp then 1 else 0)
    (hdropped : p.rxDropped = s.priv.rxDropped + if item.isDropped then 1 else 0)
    (hreceive : ∀ r budget workDone start dsa, ph = .receive r budget workDone start dsa →
      r < g.rxrings ∧ s.log.length + 1 = start + workDone ∧ workDone < budget)
    (hcleanup : ∀ r last, ph = .cleanup r last → r < g.rxrings) (hno : ph ≠ .oops) :
    Inv g p0 { s with priv := p, log := s.log ++ [(r, item)], phase := ph } where
  ring r' hr' := h.ring_take hr hf hitem hR hheader hc hmem hr'
  packets := by
    dsimp only
    rw [hpackets, h.packets, List.countP_append, List.countP_singleton, Nat.add_assoc]
  dropped := by
    dsimp only
    rw [hdropped, h.dropped, List.countP_append, List.countP_singleton, Nat.add_assoc]
  budget := h.budget
  receive r' budget workDone start dsa hphase := by
    obtain ⟨hr', hlen, hlt⟩ := hreceive r' budget workDone start dsa hphase
    refine ⟨hr', ?_, hlt⟩
    rw [List.length_append, List.length_singleton]
    exact hlen
  cleanup := hcleanup
  no_oops := hno

/-- A turn of `rtl838x_hw_receive` that is harmless. -/
theorem Inv.receiveTurn (h : Inv g p0 s) {r budget workDone start : Nat} {dsa : Bool}
    (hphase : s.phase = .receive r budget workDone start dsa) {alloc : Bool}
    (hok : ¬s.priv.Owned r (s.priv.cRx r) → alloc = true) :
    Inv g p0 (s.receiveTurn g r budget workDone start dsa alloc) := by
  obtain ⟨hr, hlen, hlt⟩ := h.receive r budget workDone start dsa hphase
  unfold Sys.receiveTurn
  by_cases howned : s.priv.Owned r (s.priv.cRx r)
  -- the switch owns the descriptor: the call returns
  · rw [receiveTurn_owned howned]
    exact h.callReturns hlen (Nat.le_of_lt hlt)
  -- a frame is waiting and its skb is allocated
  · obtain ⟨f, hf, hheader, hbytes⟩ := (h.ring r hr).exists_frame howned
    rw [receiveTurn_frame howned hheader hbytes, hok howned, if_pos rfl]
    have htaken := fun ph => h.taken
      { rearm g s.priv r (g.bufAddr r (s.priv.cRx r)) with
        rxPackets := s.priv.rxPackets + 1
        rxBytes := s.priv.rxBytes + (f.passedUp g.family dsa).length }
      (.handedUp dsa (f.passedUp g.family dsa)) ph hr hf rfl rfl rfl rfl rfl rfl rfl
    dsimp only
    split
    · next hmore =>
      refine htaken _ (fun r' b w st d hph => ?_) (fun r' last hph => ?_) (fun hph => ?_)
      · obtain ⟨rfl, rfl, rfl, rfl, rfl⟩ := Phase.receive.inj hph
        exact ⟨hr, by omega, hmore.2⟩
      · cases hph
      · cases hph
    · have hidle := htaken .idle (fun r' b w st d hph => by cases hph)
        (fun r' last hph => by cases hph) (fun hph => by cases hph)
      refine hidle.callReturns ?_ hlt
      rw [List.length_append, List.length_singleton]
      omega

/-- A turn of `rtl838x_rb_cleanup`. -/
theorem Inv.cleanupTurn (h : Inv g p0 s) {r last : Nat} (hphase : s.phase = .cleanup r last) :
    Inv g p0 (s.cleanupTurn g r last) := by
  have hr := h.cleanup r last hphase
  unfold Sys.cleanupTurn
  rw [cleanupTurn_eq]
  by_cases howned : s.priv.Owned r (s.priv.cRx r)
  · rw [if_pos howned]
    exact h.nextRing (r + 1)
  · rw [if_neg howned]
    obtain ⟨f, hf, -, -⟩ := (h.ring r hr).exists_frame howned
    -- the frame is discarded, its descriptor goes back as after a receive
    have htaken := fun ph => h.taken (rearm g s.priv r (g.bufAddr r (s.priv.cRx r))) .discarded ph
      hr hf trivial rfl rfl rfl rfl rfl rfl
    dsimp only
    split
    · refine htaken s.phase (fun r' b w st d hph => ?_) (fun r' last' hph => ?_) h.no_oops
      · rw [hphase] at hph
        cases hph
      · rw [hphase] at hph
        obtain ⟨rfl, -⟩ := Phase.cleanup.inj hph
        exact hr
    · have hidle := htaken .idle (fun r' b w st d hph => by cases hph)
        (fun r' last' hph => by cases hph) (fun hph => by cases hph)
      exact hidle.nextRing (r + 1)

/-- Every harmless step keeps the invariant. -/
theorem Inv.step (h : Inv g p0 s) {q : Step} (hq : q.Allowed g) (hok : Harmless s q) :
    Inv g p0 (Rx.step g s q) := by
  -- the condition is only about a turn of the receive loop
  cases q with
  | complete r f => exact h.complete hq f
  | receive r budget dsa =>
    unfold Rx.step
    dsimp only
    split
    · refine ⟨h.ring, h.packets, h.dropped, h.budget, fun r' b w st d hph => ?_,
        fun r' last hph => ?_, fun hph => ?_⟩
      · obtain ⟨rfl, rfl, rfl, rfl, rfl⟩ := Phase.receive.inj hph
        exact ⟨hq.1, rfl, hq.2⟩
      · cases hph
      · cases hph
    · exact h
  | cleanup =>
    unfold Rx.step
    dsimp only
    split
    · exact h.nextRing 0
    · exact h
  | turn alloc =>
    unfold Rx.step
    dsimp only
    split
    · next r budget workDone start dsa hphase =>
      exact h.receiveTurn hphase (hok r budget workDone start dsa hphase)
    · next r last hphase => exact h.cleanupTurn hphase
    · exact h

/-- Any other turn runs into the `NULL` pointer. -/
theorem Inv.harmless_of_good (h : Inv g p0 s) {q : Step} (hgood : Good g p0 (Rx.step g s q)) :
    Harmless s q := by
  cases q with
  | complete r f => trivial
  | receive r budget dsa => trivial
  | cleanup => trivial
  | turn alloc =>
    intro r budget workDone start dsa hphase hnot
    obtain ⟨hr, -, -⟩ := h.receive r budget workDone start dsa hphase
    obtain ⟨f, -, hheader, hbytes⟩ := (h.ring r hr).exists_frame hnot
    cases alloc with
    | true => rfl
    -- an allocation that fails on a waiting frame dereferences the null skb
    | false =>
      refine absurd ?_ hgood.no_oops
      unfold Rx.step
      dsimp only
      rw [hphase]
      dsimp only
      unfold Sys.receiveTurn
      rw [receiveTurn_frame hnot hheader hbytes]
      rfl

/-! ### Runs -/

/-- The state after `rtl838x_setup_ring_buffer`. -/
def setup (g : Cfg) (p0 : Priv) : Sys where
  priv := setupRingBuffer g p0
  hw _ := 0
  phase := .idle
  completed _ := []
  log := []
  calls := []

/-- The rings that were set up meet the invariant. -/
theorem setup_inv (g : Cfg) (p0 : Priv) : Inv g p0 (setup g p0) where
  ring r _ := by
    refine ⟨Nat.le_refl _, Nat.zero_le _, (Nat.zero_mod _).symm, (Nat.zero_mod _).symm, ?_, ?_, ?_⟩
    -- no frame was taken yet, and none completed
    · intro i item f hi
      cases hi
    · intro i f _ hf
      cases hf
    · intro i _ _
      exact ⟨rfl, rfl⟩
  packets := rfl
  dropped := rfl
  budget c hc := absurd hc List.not_mem_nil
  receive _ _ _ _ _ hphase := by cases hphase
  cleanup _ _ hphase := by cases hphase
  no_oops hphase := by cases hphase

private theorem sample_rxrings : 8 ≤ maxRxrings := by decide

private theorem sample_pos : 0 < 100 := by decide

private theorem sample_rxringlen : 100 ≤ maxRxlen := by decide

private theorem sample_aligned : (0xa1000000#32).toNat % 4 = 0 := by decide

private theorem sample_fits :
    (0xa1100000#32).toNat % 2 ^ 29 + 8 * 100 * ringBuffer ≤ 2 ^ 29 := by decide

private theorem sample_four : 4 ≤ (List.replicate 64 (0 : UInt8)).length := by decide

private theorem sample_le : (List.replicate 64 (0 : UInt8)).length ≤ ringBuffer := by decide

/-- The rings of an RTL8380. -/
def sampleCfg : Cfg where
  family := .rtl8380
  rxrings := 8
  rxringlen := 100
  rxHeader := 0xa1000000#32
  rxSpace := 0xa1100000#32
  rxrings_le := sample_rxrings
  rxringlen_pos := sample_pos
  rxringlen_le := sample_rxringlen
  aligned := sample_aligned
  fits := sample_fits

/-- The memory before the setup. -/
def samplePriv : Priv where
  rxR _ _ := 0#32
  rxHeader _ _ := resetHeader 0#32
  cRx _ := 0
  mem _ := 0
  rxPackets := 0
  rxBytes := 0
  rxDropped := 0

def sampleFrame : Frame where
  bytes := List.replicate 64 0
  cpuTag _ := 0#16
  four_le := sample_four
  le_ringBuffer := sample_le

end HandsomeMod.Native.Rtl838x.Rx
