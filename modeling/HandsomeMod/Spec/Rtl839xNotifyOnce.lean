import HandsomeMod.ForStd.Ring
import HandsomeMod.ForStd.Run
import HandsomeMod.Spec.Rtl839xNotifyBlock

/-!
# Every event once

The switch fills the blocks of the notification ring in their order, also while the handler runs.
The work items run in any order. Every valid event of the blocks that were taken is delivered once
as long as the blocks are clean, and the next interrupt goes on behind the last block that was
taken unless an allocation fails away from the position where the handler started.
-/

namespace HandsomeMod.Native.Rtl839x.Notify

open HandsomeMod.ForStd

variable {ν : Type}

/-- The driver and the switch. -/
structure Machine (ν : Type) where
  priv : Priv ν
  /-- The ring entry that the switch fills next. -/
  hw : Nat
  /-- The blocks that the switch has handed over. -/
  handed : List Block
  /-- How many of them the handler has taken. -/
  taken : Nat
  delivered : List (Notification ν)

inductive Step where
  /-- The switch fills a block and clears the low bit of its ring entry. -/
  | fill (b : Block)
  | interrupt
  /-- A turn of the handler; `alloc` is whether `kzalloc` succeeds. -/
  | turn (alloc : Bool)
  /-- A work item runs. -/
  | work (k : Nat)

/-- The switch waits for a ring entry that it was handed back. -/
def Machine.fill (m : Machine ν) (b : Block) : Machine ν :=
  if m.priv.Ready m.hw then m
  else
    { m with
      priv := { m.priv with
        blocks := Function.update m.priv.blocks m.hw b
        ring := Function.update m.priv.ring m.hw (m.priv.ring m.hw &&& ~~~1#32) }
      hw := (m.hw + 1) % notifyBlocks
      handed := m.handed ++ [b] }

def step (m : Machine ν) : Step → Machine ν
  | .fill b => m.fill b
  | .interrupt =>
    match m.priv.running with
    | some _ => m
    | none => { m with priv := handlerStart m.priv }
  | .turn alloc =>
    match m.priv.running with
    | none => m
    | some e =>
      { m with
        priv := handlerTurn m.priv e alloc
        taken := if m.priv.Ready e ∧ alloc = true then m.taken + 1 else m.taken }
  | .work k =>
    match m.priv.works[k]? with
    | none => m
    | some w =>
      { m with
        priv := { m.priv with works := m.priv.works.eraseIdx k }
        delivered := m.delivered ++ fdbSync w }

/-- What was delivered and what the work items will deliver. -/
def Machine.told (m : Machine ν) : List (Notification ν) :=
  m.delivered ++ m.priv.works.flatMap fdbSync

/-- An interrupt whose `n` turns have all their allocations. -/
def Machine.interrupt (m : Machine ν) (n : Nat) : Machine ν :=
  (List.replicate n (Step.turn true)).foldl step (step m .interrupt)

/-- What is to hold after every step. -/
structure Good (m : Machine ν) : Prop where
  /-- The valid events of the blocks that were taken are delivered once each. -/
  once : m.told.Perm ((m.handed.take m.taken).flatMap (events m.priv.netdev))
  /-- The next interrupt starts behind the blocks that were taken. -/
  position : m.priv.running = none → m.priv.lastEvent = m.taken % notifyBlocks
  /-- It picks up all blocks that are left. -/
  rest : m.priv.running = none → ∃ n, (m.interrupt n).priv.running = none ∧
    (m.interrupt n).handed = m.handed ∧ (m.interrupt n).taken = m.handed.length

/-- A turn of the handler is harmless if the block that it takes is clean, and if the allocation does
    not fail away from the position where the handler started. -/
def Harmless (m : Machine ν) : Step → Prop
  | .turn alloc => ∀ e, m.priv.running = some e → m.priv.Ready e →
      if alloc then Clean (m.priv.blocks e) else e = m.priv.lastEvent
  | _ => True

/-! ### Positions -/

/-- Where the blocks are that wait for the CPU. -/
structure Placed (m : Machine ν) : Prop where
  taken_le : m.taken ≤ m.handed.length
  handed_le : m.handed.length ≤ m.taken + notifyBlocks
  hw : m.hw = m.handed.length % notifyBlocks
  running : ∀ e, m.priv.running = some e → e = m.taken % notifyBlocks
  ready : ∀ i, m.taken ≤ i → i < m.handed.length → m.priv.Ready (i % notifyBlocks) ∧
    m.handed[i]? = some (m.priv.blocks (i % notifyBlocks))
  free : ∀ i, m.handed.length ≤ i → i < m.taken + notifyBlocks →
    ¬m.priv.Ready (i % notifyBlocks)

/-- A block that was given back belongs to the switch. -/
private theorem not_ready_set (w : U32) : (w ||| 1#32) &&& 1#32 ≠ 0#32 := by
  intro h
  have h0 := congrArg (fun x => BitVec.getLsbD x 0) h
  simp at h0

variable {m : Machine ν}

/-- The block that the handler looks at is ready exactly if a block is left. -/
theorem Placed.ready_iff (h : Placed m) :
    m.priv.Ready (m.taken % notifyBlocks) ↔ m.taken < m.handed.length := by
  constructor
  · intro hready
    by_contra hge
    refine h.free m.taken (Nat.le_of_not_lt hge) ?_ hready
    exact Nat.lt_add_of_pos_right (by decide)
  · intro hlt
    exact (h.ready m.taken (Nat.le_refl _) hlt).1

/-- The switch fills blocks in order. -/
theorem Placed.fill (h : Placed m) (b : Block) : Placed (m.fill b) := by
  unfold Machine.fill
  split
  · exact h
  · next hnot =>
    -- the ring is not full
    have hroom : m.handed.length < m.taken + notifyBlocks := by
      by_contra hge
      have hfull : m.handed.length = m.taken + notifyBlocks :=
        le_antisymm h.handed_le (Nat.le_of_not_lt hge)
      apply hnot
      rw [h.hw, hfull, Nat.add_mod_right]
      exact h.ready_iff.mpr (by rw [hfull]; exact Nat.lt_add_of_pos_right (by decide))
    have hlen : (m.handed ++ [b]).length = m.handed.length + 1 := by simp
    -- the slots in use are all different, so only the filled one changes
    have hother : ∀ i, m.taken ≤ i → i < m.taken + notifyBlocks → i ≠ m.handed.length →
        i % notifyBlocks ≠ m.hw := by
      intro i hi hi' hne heq
      rw [h.hw] at heq
      have htaken := h.taken_le
      exact hne (Ring.eq_of_mod_eq heq (by omega) (by omega))
    constructor
    · dsimp only
      have htaken := h.taken_le
      omega
    · dsimp only
      omega
    · dsimp only
      rw [hlen, h.hw, Nat.mod_add_mod]
    · exact h.running
    · intro i hi hlt
      dsimp only at hi hlt ⊢
      unfold Priv.Ready
      dsimp only
      by_cases hi' : i = m.handed.length
      · subst hi'
        rw [← h.hw, Function.update_self, Function.update_self]
        exact ⟨Ring.and_not_and_self _ _, by simp⟩
      -- a block handed over before keeps its slot
      · have hne := hother i hi (by omega) hi'
        have hlt' : i < m.handed.length := by omega
        rw [Function.update_of_ne hne, Function.update_of_ne hne, List.getElem?_append_left hlt']
        exact h.ready i hi hlt'
    · intro i hi hlt
      dsimp only at hi hlt ⊢
      unfold Priv.Ready
      dsimp only
      have htaken := h.taken_le
      have hne := hother i (by omega) hlt (by omega)
      rw [Function.update_of_ne hne]
      exact h.free i (by omega) hlt

/-- A turn that takes the block at the position of the handler. -/
theorem Placed.take (h : Placed m) (hlt : m.taken < m.handed.length) :
    Placed { m with
      priv := { m.priv with
        ring := Function.update m.priv.ring (m.taken % notifyBlocks)
          (m.priv.ring (m.taken % notifyBlocks) ||| 1#32)
        running := some ((m.taken % notifyBlocks + 1) % notifyBlocks)
        works := m.priv.works ++
          [workOf m.priv.netdev (m.priv.blocks (m.taken % notifyBlocks))] }
      taken := m.taken + 1 } := by
  -- the slots in use are all different, so only the taken one changes
  have hother : ∀ i, m.taken < i → i < m.taken + notifyBlocks →
      i % notifyBlocks ≠ m.taken % notifyBlocks := by
    intro i hi hi' heq
    have := Ring.eq_of_mod_eq heq (by omega) (by omega)
    omega
  have hhanded := h.handed_le
  constructor
  · exact hlt
  · dsimp only
    omega
  · exact h.hw
  · intro e he
    obtain rfl := Option.some.inj he
    dsimp only
    rw [Nat.mod_add_mod]
  · intro i hi hi'
    dsimp only at hi hi' ⊢
    unfold Priv.Ready
    dsimp only
    rw [Function.update_of_ne (hother i hi (by omega))]
    exact h.ready i (by omega) hi'
  · intro i hi hi'
    dsimp only at hi hi' ⊢
    unfold Priv.Ready
    dsimp only
    -- the slot given back is the one that comes free at the end of the ring
    by_cases hlast : i = m.taken + notifyBlocks
    · rw [hlast, Nat.add_mod_right, Function.update_self]
      exact not_ready_set _
    · rw [Function.update_of_ne (hother i (by omega) (by omega))]
      exact h.free i hi (by omega)

/-- What a turn of the handler does. -/
private theorem turn_cases (h : Placed m) {e : Nat} (he : m.priv.running = some e) (alloc : Bool) :
    (¬m.priv.Ready e ∧ step m (.turn alloc) =
      { m with priv := { m.priv with lastEvent := e, running := none } }) ∨
    (m.priv.Ready e ∧ alloc = false ∧ step m (.turn alloc) =
      { m with priv := { m.priv with running := none } }) ∨
    (m.priv.Ready e ∧ alloc = true ∧ m.taken < m.handed.length ∧ step m (.turn alloc) =
      { m with
        priv := { m.priv with
          ring := Function.update m.priv.ring e (m.priv.ring e ||| 1#32)
          running := some ((e + 1) % notifyBlocks)
          works := m.priv.works ++ [workOf m.priv.netdev (m.priv.blocks e)] }
        taken := m.taken + 1 }) := by
  unfold step handlerTurn
  rw [he]
  dsimp only
  -- a block that is not ready ends the handler
  by_cases hready : m.priv.Ready e
  · cases alloc with
    -- there is no memory for the work
    | false => exact Or.inr (Or.inl ⟨hready, rfl, by simp [hready]⟩)
    | true =>
      have hlt : m.taken < m.handed.length := by
        rw [h.running e he] at hready
        exact h.ready_iff.mp hready
      exact Or.inr (Or.inr ⟨hready, rfl, hlt, by simp [hready]⟩)
  · exact Or.inl ⟨hready, by simp [hready]⟩

/-- The next interrupt starts behind the blocks that were taken. -/
def Machine.Positioned (m : Machine ν) : Prop :=
  m.priv.running = none → m.priv.lastEvent = m.taken % notifyBlocks

/-- Every step keeps the blocks in their places. -/
theorem Placed.step (h : Placed m) (hpos : m.Positioned) (q : Step) :
    Placed (Notify.step m q) := by
  -- only a fill and a turn that takes a block move the counters
  cases q with
  | fill b => exact h.fill b
  | interrupt =>
    unfold Notify.step
    dsimp only
    split
    · exact h
    · next hnone =>
      refine ⟨h.taken_le, h.handed_le, h.hw, fun e he => ?_, h.ready, h.free⟩
      obtain rfl := Option.some.inj he
      exact hpos hnone
  | turn alloc =>
    cases he : m.priv.running with
    | none =>
      have hsame : Notify.step m (.turn alloc) = m := by
        unfold Notify.step
        simp [he]
      rw [hsame]
      exact h
    | some e =>
      obtain ⟨-, heq⟩ | ⟨-, -, heq⟩ | ⟨-, -, hlt, heq⟩ := turn_cases h he alloc
      · rw [heq]
        exact ⟨h.taken_le, h.handed_le, h.hw, fun _ hx => absurd hx (Option.some_ne_none _).symm,
          h.ready, h.free⟩
      · rw [heq]
        exact ⟨h.taken_le, h.handed_le, h.hw, fun _ hx => absurd hx (Option.some_ne_none _).symm,
          h.ready, h.free⟩
      · rw [heq, h.running e he]
        exact h.take hlt
  | work k =>
    unfold Notify.step
    dsimp only
    split
    · exact h
    · exact ⟨h.taken_le, h.handed_le, h.hw, h.running, h.ready, h.free⟩

/-- The handler takes all blocks that are left, if no allocation fails. -/
theorem Placed.exists_turns (h : Placed m) {e : Nat} (he : m.priv.running = some e) :
    ∃ n, ((List.replicate n (Step.turn true)).foldl Notify.step m).priv.running = none ∧
      ((List.replicate n (Step.turn true)).foldl Notify.step m).handed = m.handed ∧
      ((List.replicate n (Step.turn true)).foldl Notify.step m).taken = m.handed.length := by
  -- by induction on the number of blocks that are left
  induction hleft : m.handed.length - m.taken generalizing m e with
  | zero =>
    have hend : ¬m.priv.Ready e := by
      rw [h.running e he, h.ready_iff]
      omega
    have htaken := h.taken_le
    obtain ⟨-, heq⟩ | ⟨hready, -⟩ | ⟨hready, -⟩ := turn_cases h he true
    · refine ⟨1, ?_⟩
      rw [List.replicate_one, List.foldl_cons, List.foldl_nil, heq]
      exact ⟨rfl, rfl, by dsimp only; omega⟩
    · exact absurd hready hend
    · exact absurd hready hend
  | succ k ih =>
    have hready : m.priv.Ready e := by
      rw [h.running e he, h.ready_iff]
      omega
    obtain ⟨hnot, -⟩ | ⟨-, hno, -⟩ | ⟨-, -, hlt, heq⟩ := turn_cases h he true
    · exact absurd hready hnot
    · cases hno
    · have hnext : Placed (Notify.step m (.turn true)) := by
        rw [heq, h.running e he]
        exact h.take hlt
      obtain ⟨n, hn⟩ := ih (m := Notify.step m (.turn true)) (e := (e + 1) % notifyBlocks) hnext
        (by rw [heq]) (by rw [heq]; dsimp only; omega)
      refine ⟨n + 1, ?_⟩
      rw [List.replicate_succ, List.foldl_cons]
      rw [heq] at hn ⊢
      exact hn

/-- With an interrupt that runs to its end all filled blocks are handed over. -/
theorem Placed.exists_interrupt (h : Placed m) (hpos : m.Positioned)
    (hrun : m.priv.running = none) : ∃ n, (m.interrupt n).priv.running = none ∧
      (m.interrupt n).handed = m.handed ∧ (m.interrupt n).taken = m.handed.length := by
  have hstart : Notify.step m .interrupt = { m with priv := handlerStart m.priv } := by
    unfold Notify.step
    simp [hrun]
  have hplaced := h.step hpos .interrupt
  obtain ⟨n, hn⟩ := hplaced.exists_turns (e := m.priv.lastEvent) (by rw [hstart]; rfl)
  refine ⟨n, ?_⟩
  unfold Machine.interrupt
  rw [hstart] at hn ⊢
  exact hn

/-! ### Deliveries -/

/-- A work item that runs delivers what it would. -/
private theorem told_work (m : Machine ν) (k : Nat) : (Notify.step m (.work k)).told.Perm m.told
    := by
  unfold Notify.step
  dsimp only
  split
  · exact List.Perm.refl _
  · next w hw =>
    obtain ⟨hlt, rfl⟩ := List.getElem?_eq_some_iff.mp hw
    -- the work leaves the queue and its events are delivered
    have hperm := (List.getElem_cons_eraseIdx_perm hlt).flatMap_right fdbSync
    unfold Machine.told
    dsimp only
    rw [List.append_assoc]
    rw [List.flatMap_cons] at hperm
    exact hperm.append_left m.delivered

/-- What is to be delivered of the blocks that were taken. -/
def Machine.due (m : Machine ν) : List (Notification ν) :=
  (m.handed.take m.taken).flatMap (events m.priv.netdev)

/-- Of the next block the valid events are delivered once exactly if it is clean. -/
theorem Placed.perm_take_iff (h : Placed m) (hlt : m.taken < m.handed.length) {e : Nat}
    (he : m.priv.running = some e) (honce : m.told.Perm m.due) :
    (m.told ++ fdbSync (workOf m.priv.netdev (m.priv.blocks e))).Perm
      ((m.handed.take (m.taken + 1)).flatMap (events m.priv.netdev)) ↔
      Clean (m.priv.blocks e) := by
  obtain ⟨-, hblock⟩ := h.ready m.taken (Nat.le_refl _) hlt
  rw [← h.running e he] at hblock
  obtain ⟨rest, heq, hclean⟩ := fdbSync_workOf m.priv.netdev (m.priv.blocks e)
  -- the events due grow by those of the block, of which the work tells all but `rest`
  have hdue : (m.handed.take (m.taken + 1)).flatMap (events m.priv.netdev) =
      m.due ++ (fdbSync (workOf m.priv.netdev (m.priv.blocks e)) ++ rest) := by
    rw [List.take_add_one, hblock, List.flatMap_append, Option.toList_some, List.flatMap_singleton,
      heq]
    rfl
  rw [hdue, ← hclean]
  constructor
  · intro hperm
    have hlen := hperm.length_eq
    have hold := honce.length_eq
    simp only [List.length_append] at hlen
    exact List.length_eq_zero_iff.mp (by omega)
  · rintro rfl
    rw [List.append_nil]
    exact honce.append_right _

/-! ### Runs -/

/-- The invariant of a run. -/
structure Inv (m : Machine ν) : Prop where
  placed : Placed m
  once : m.told.Perm m.due
  position : m.Positioned

/-- The invariant says what is promised. -/
theorem Inv.good (h : Inv m) : Good m where
  once := h.once
  position := h.position
  rest := h.placed.exists_interrupt h.position

/-- A step keeps the invariant exactly if it is harmless. -/
theorem Inv.step_iff (h : Inv m) (q : Step) :
    ((step m q).told.Perm (step m q).due ∧ (step m q).Positioned) ↔ Harmless m q := by
  -- a fill, an interrupt and a work item keep both; the condition is on the turn alone
  cases q with
  | fill b =>
    refine ⟨fun _ => trivial, fun _ => ?_⟩
    unfold step Machine.fill
    dsimp only
    split
    · exact ⟨h.once, h.position⟩
    · refine ⟨?_, h.position⟩
      have htake : (m.handed ++ [b]).take m.taken = m.handed.take m.taken :=
        List.take_append_of_le_length h.placed.taken_le
      unfold Machine.due
      dsimp only
      rw [htake]
      exact h.once
  | interrupt =>
    refine ⟨fun _ => trivial, fun _ => ?_⟩
    unfold step
    dsimp only
    split
    · exact ⟨h.once, h.position⟩
    · exact ⟨h.once, fun hx => by cases hx⟩
  | work k =>
    refine ⟨fun _ => trivial, fun _ => ⟨(told_work m k).trans ?_, ?_⟩⟩
    · have hdue : (step m (.work k)).due = m.due := by
        unfold step
        dsimp only
        split <;> rfl
      rw [hdue]
      exact h.once
    · unfold step
      dsimp only
      split
      · exact h.position
      · exact h.position
  | turn alloc =>
    cases he : m.priv.running with
    | none =>
      have hsame : step m (.turn alloc) = m := by
        unfold step
        simp [he]
      rw [hsame]
      refine ⟨fun _ e hx => ?_, fun _ => ⟨h.once, h.position⟩⟩
      rw [he] at hx
      cases hx
    | some e =>
      have hat := h.placed.running e he
      have hharm : Harmless m (.turn alloc) ↔ (m.priv.Ready e →
          if alloc then Clean (m.priv.blocks e) else e = m.priv.lastEvent) := by
        constructor
        · exact fun hx => hx e he
        · intro hx e' he'
          obtain rfl := Option.some.inj (he.symm.trans he')
          exact hx
      rw [hharm]
      obtain ⟨hnot, heq⟩ | ⟨hready, rfl, heq⟩ | ⟨hready, rfl, hlt, heq⟩ :=
        turn_cases h.placed he alloc
      · -- the handler ends behind the last block
        rw [heq]
        exact ⟨fun _ hx => absurd hx hnot, fun _ => ⟨h.once, fun _ => hat⟩⟩
      · rw [heq]
        constructor
        · rintro ⟨-, hpos⟩ -
          exact hat.trans (hpos rfl).symm
        · intro hx
          have hlast : e = m.priv.lastEvent := hx hready
          exact ⟨h.once, fun _ => hlast.symm.trans hat⟩
      -- the allocation failed: the turn keeps the position only at the block it started at
      · rw [heq]
        -- the block is told once if and only if its entries are told by the work it becomes
        have hiff := h.placed.perm_take_iff hlt he h.once
        have htold : m.delivered ++ (m.priv.works ++
              [workOf m.priv.netdev (m.priv.blocks e)]).flatMap fdbSync =
            m.told ++ fdbSync (workOf m.priv.netdev (m.priv.blocks e)) := by
          rw [List.flatMap_append, List.flatMap_singleton, ← List.append_assoc]
          rfl
        unfold Machine.told Machine.due Machine.Positioned
        dsimp only
        rw [htold, hiff]
        exact ⟨fun hx _ => hx.1, fun hx => ⟨hx hready, fun hno => by cases hno⟩⟩

/-- Once no block and no work item is left, the bridge has been told about every valid event of all
    blocks, each once. -/
theorem Good.all_delivered (h : Good m) (htaken : m.taken = m.handed.length)
    (hworks : m.priv.works = []) :
    m.delivered.Perm (m.handed.flatMap (events m.priv.netdev)) := by
  have honce := h.once
  unfold Machine.told at honce
  rwa [hworks, List.flatMap_nil, List.append_nil, htaken, List.take_length] at honce

/-- The state after `rtl839x_setup_notify_ring_buffer`. -/
def setup (netdev : ν) (addr : Nat → U32) (blocks : Nat → Block) : Machine ν where
  priv := setupNotifyRingBuffer netdev addr blocks
  hw := 0
  handed := []
  taken := 0
  delivered := []

/-- The ring that was set up meets the invariant. -/
theorem setup_inv (netdev : ν) (addr : Nat → U32) (blocks : Nat → Block) :
    Inv (setup netdev addr blocks) where
  placed := by
    refine ⟨Nat.le_refl 0, Nat.zero_le _, rfl, fun e he => ?_, fun i _ hi => ?_,
      fun i _ _ hready => ?_⟩
    · cases he
    · exact absurd hi (Nat.not_lt_zero i)
    · have hbit := congrArg (fun x => BitVec.getLsbD x 0) hready
      simp [setup, setupNotifyRingBuffer] at hbit
  once := List.Perm.refl []
  position _ := rfl

/-- After every step of a run the events are delivered once and the next interrupt goes on at the
    right position exactly if all turns of the handler are harmless. -/
theorem run_once_iff (netdev : ν) (addr : Nat → U32) (blocks : Nat → Block) (steps : List Step) :
    Along step (fun _ _ m' => Good m') (setup netdev addr blocks) steps ↔
      Along step (fun m q _ => Harmless m q) (setup netdev addr blocks) steps := by
  have hkeep : ∀ (m : Machine ν) (q : Step), Inv m → True → Harmless m q →
      Inv (step m q) ∧ Good (step m q) := by
    intro m q hinv _ hharm
    obtain ⟨honce, hpos⟩ := (hinv.step_iff q).mpr hharm
    have hnext : Inv (step m q) := ⟨hinv.placed.step hinv.position q, honce, hpos⟩
    exact ⟨hnext, hnext.good⟩
  have hbreak : ∀ (m : Machine ν) (q : Step), Inv m → True → Good (step m q) → Harmless m q :=
    fun m q hinv _ hgood => (hinv.step_iff q).mp ⟨hgood.once, hgood.position⟩
  exact Along.iff_of_invariant hkeep hbreak (setup_inv netdev addr blocks)
    (Along.of_forall fun _ _ => trivial)

/-- A block whose second event is its only valid one. -/
def sampleBlock : Block := fun i =>
  { type := 1#2, mac := 0x00e04c000001#48, valid := decide (i.val = 1) }

/-- The only valid event of the block is not delivered. -/
theorem run_second_event_lost : ¬Along step (fun _ _ m' => Good m')
    (setup () (fun _ => 0xa0000000#32) fun _ => sampleBlock)
    [.fill sampleBlock, .interrupt, .turn true, .turn true, .work 0] := by
  rintro ⟨-, -, hgood, -⟩
  have hlen := hgood.once.length_eq
  revert hlen
  decide

end HandsomeMod.Native.Rtl839x.Notify
