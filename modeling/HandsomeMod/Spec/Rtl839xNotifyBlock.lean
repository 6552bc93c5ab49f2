import HandsomeMod.Native.Rtl839xNotify
import HandsomeMod.ForStd.Update

/-!
# Notifications of one block

The work item of a block has the values of its events at their own positions, and
`rtl838x_fdb_sync` stops at the first zero. So the bridge is told about a beginning of the valid
events, and about all of them exactly if they are in front and none of them has the value zero.
-/

namespace HandsomeMod.Native.Rtl839x.Notify

open HandsomeMod.ForStd

variable {ν : Type} {netdev : ν} {b : Block}

/-- What the bridge is to be told about an event. -/
def Event.notification (netdev : ν) (event : Event) : Notification ν where
  action := if event.type ≠ 0#2 then .addToBridge else .delToBridge
  ndev := some netdev
  addr := event.mac
  vid := 0#16
  offloaded := true

/-- The valid events of a block. -/
def events (netdev : ν) (b : Block) : List (Notification ν) :=
  ((List.ofFn b).filter Event.valid).map (Event.notification netdev)

/-- The valid events are in front, and none of them is a delete of the address zero. -/
def Clean (b : Block) : Prop :=
  ∀ i, (b i).valid = true → (b i).value ≠ 0#64 ∧ ∀ j < i, (b j).valid = true

/-- A slot of the work item. -/
def Event.slot (event : Event) : U64 := if event.valid then event.value else 0#64

/-! ### Values -/

/-- Bit 63 and the address of a value. -/
private theorem getLsbD_value (event : Event) {j : Nat} (hj : j < 64) :
    event.value.getLsbD j =
      (decide (j < 48) && event.mac.getLsbD j || decide (j = 63 ∧ event.type ≠ 0#2)) := by
  have hbit : ((1#64) <<< 63).getLsbD j = decide (j = 63) := by
    interval_cases j <;> decide
  unfold Event.value
  -- a new address sets bit 63 above the 48 bits of the address
  by_cases ht : event.type = 0#2
  · by_cases h48 : j < 48
    · simp [ht, hj, h48]
    · have hge : 48 ≤ j := by omega
      simp [ht, hj, h48, BitVec.getLsbD_of_ge event.mac j hge]
  · by_cases h48 : j < 48
    · have hne : j ≠ 63 := by omega
      simp only [ht, not_false_eq_true, if_true, ne_eq, BitVec.getLsbD_or, hbit]
      simp [hj, h48, hne]
    · have hge : 48 ≤ j := by omega
      simp only [ht, not_false_eq_true, if_true, ne_eq, BitVec.getLsbD_or, hbit]
      simp [hj, h48, BitVec.getLsbD_of_ge event.mac j hge]

/-- The address of an event. -/
private theorem value_addr (event : Event) :
    (event.value &&& 0xffffffffffff#64).setWidth 48 = event.mac := by
  have hmask : (0xffffffffffff#64) = (BitVec.allOnes 48).setWidth 64 := by decide
  apply BitVec.eq_of_getLsbD_eq
  intro j hj
  have hj64 : j < 64 := by omega
  have hne : j ≠ 63 := by omega
  rw [BitVec.getLsbD_setWidth, BitVec.getLsbD_and, hmask, BitVec.getLsbD_setWidth,
    BitVec.getLsbD_allOnes, getLsbD_value event hj64]
  simp [hj, hj64, hne]

/-- The type of an event says whether it is added. -/
private theorem value_action (event : Event) :
    event.value &&& (1#64 <<< 63) ≠ 0#64 ↔ event.type ≠ 0#2 := by
  -- bit 63 is set for every type but 0
  have hbit : ∀ j < 64, ((1#64) <<< 63).getLsbD j = decide (j = 63) := by
    intro j hj
    interval_cases j <;> decide
  constructor
  · intro hne htype
    apply hne
    apply BitVec.eq_of_getLsbD_eq
    intro j hj
    rw [BitVec.getLsbD_and, getLsbD_value event hj, hbit j hj, BitVec.getLsbD_zero]
    by_cases hj63 : j = 63
    · subst hj63
      simp [htype]
    · simp [hj63]
  · intro htype hzero
    have h63 := congrArg (fun x => BitVec.getLsbD x 63) hzero
    simp only [BitVec.getLsbD_and, getLsbD_value event (show 63 < 64 by decide),
      hbit 63 (by decide), BitVec.getLsbD_zero] at h63
    simp [htype] at h63

/-- A value that is not zero gives the notification of its event. -/
private theorem fdbSyncFrom_value (event : Event) (macs : List U64) (h : event.value ≠ 0#64) :
    fdbSyncFrom (some netdev) (event.value :: macs) =
      event.notification netdev :: fdbSyncFrom (some netdev) macs := by
  have haction : (if event.value &&& (1#64 <<< 63) ≠ 0#64 then Action.addToBridge
      else .delToBridge) = if event.type ≠ 0#2 then .addToBridge else .delToBridge := by
    simp only [value_action]
  rw [fdbSyncFrom, if_neg h, haction, value_addr]
  rfl

/-! ### The work item -/

/-- The slots after the loop over the events. -/
private theorem macs_workOf (netdev : ν) (b : Block) :
    (workOf netdev b).macs = (List.ofFn b).map Event.slot ++ [0#64] := by
  -- one turn writes the slot of its own event, and only if the event is valid
  have hturn : ∀ i ∈ List.finRange notifyEvents, ∀ (w : Work ν) (k : Nat),
      (storeEvent netdev b w i).macs[k]? = if k = i.val then
        (if (b i).valid then w.macs[k]?.map (fun _ => (b i).value) else w.macs[k]?)
      else w.macs[k]? := by
    intro i _ w k
    unfold storeEvent
    cases hv : (b i).valid with
    | false => simp
    | true =>
      simp only [Bool.not_true, Bool.false_eq_true, if_false, List.getElem?_set', if_true]
      by_cases hk : k = i.val
      · rw [if_pos hk.symm, if_pos hk]
        rfl
      · rw [if_neg (Ne.symm hk), if_neg hk]
  have hnodup : ((List.finRange notifyEvents).map Fin.val).Nodup :=
    (List.nodup_finRange notifyEvents).map Fin.val_injective
  -- each slot is written by one turn, so the order of the turns does not matter
  obtain ⟨hin, hout⟩ := foldl_update (fun (w : Work ν) (k : Nat) => w.macs[k]?) Fin.val
    (fun i old => if (b i).valid then old.map (fun _ => (b i).value) else old)
    (storeEvent netdev b) hnodup hturn
    { ndev := none, macs := List.replicate (notifyEvents + 1) 0#64 }
  -- behind the events the array is as it was allocated
  have hbehind : ∀ k, notifyEvents ≤ k → ((List.finRange notifyEvents).foldl
      (storeEvent netdev b)
      { ndev := none, macs := List.replicate (notifyEvents + 1) 0#64 }).macs[k]? =
        (List.replicate (notifyEvents + 1) 0#64)[k]? := by
    intro k hk
    apply hout
    rw [List.mem_map]
    rintro ⟨i, -, rfl⟩
    exact absurd i.isLt (Nat.not_lt.mpr hk)
  unfold workOf
  dsimp only
  apply List.ext_getElem?
  intro k
  rw [List.getElem?_set']
  by_cases hlt : k < notifyEvents
  · have hslot := hin ⟨k, hlt⟩ (List.mem_finRange _)
    dsimp only at hslot
    have hk11 : k < notifyEvents + 1 := by omega
    rw [if_neg (Ne.symm hlt.ne), hslot, List.getElem?_replicate, if_pos hk11,
      List.getElem?_append_left (by simpa using hlt), List.getElem?_map, List.getElem?_ofFn,
      dif_pos hlt]
    unfold Event.slot
    cases hv : (b ⟨k, hlt⟩).valid <;> simp [hv]
  · have hge : notifyEvents ≤ k := Nat.le_of_not_lt hlt
    rw [hbehind k hge, List.getElem?_append_right (by simpa using hge)]
    by_cases hk : notifyEvents = k
    · subst hk
      simp
    · have hgt : notifyEvents + 1 ≤ k := by omega
      rw [if_neg hk, List.getElem?_eq_none (by simpa using hgt), List.getElem?_eq_none]
      simp only [List.length_map, List.length_ofFn, List.length_singleton]
      omega

/-- The work item has the device if there is a valid event. -/
private theorem ndev_workOf (netdev : ν) (b : Block) :
    (workOf netdev b).ndev = if ∃ i, (b i).valid = true then some netdev else none := by
  -- each valid event sets the device
  have hfold : ∀ (l : List (Fin notifyEvents)) (w : Work ν),
      (l.foldl (storeEvent netdev b) w).ndev =
        if ∃ i ∈ l, (b i).valid = true then some netdev else w.ndev := by
    intro l
    induction l with
    | nil => simp
    | cons i l ih =>
      intro w
      rw [List.foldl_cons, ih]
      unfold storeEvent
      cases hv : (b i).valid with
      | false => simp [hv]
      | true => simp [hv]
  unfold workOf
  simp [hfold]

/-! ### What the bridge is told -/

/-- `Clean` for a list of events. -/
private def CleanList (l : List Event) : Prop :=
  ∀ (i : Nat) (event : Event), l[i]? = some event → event.valid = true →
    event.value ≠ 0#64 ∧ ∀ (j : Nat) (event' : Event), j < i → l[j]? = some event' →
      event'.valid = true

/-- An event that is taken does not make a list unclean. -/
private theorem cleanList_cons {event : Event} (hvalid : event.valid = true)
    (hvalue : event.value ≠ 0#64) (l : List Event) : CleanList (event :: l) ↔ CleanList l := by
  constructor
  · intro h i e hi hv
    obtain ⟨hne, hall⟩ := h (i + 1) e hi hv
    exact ⟨hne, fun j e' hj he' => hall (j + 1) e' (by omega) he'⟩
  · intro h i e hi hv
    -- the first event is valid and not zero, so it stops nothing
    cases i with
    | zero =>
      obtain rfl := Option.some.inj hi
      exact ⟨hvalue, fun j e' hj _ => absurd hj (Nat.not_lt_zero j)⟩
    | succ i =>
      obtain ⟨hne, hall⟩ := h i e hi hv
      refine ⟨hne, fun j e' hj he' => ?_⟩
      cases j with
      | zero =>
        obtain rfl := Option.some.inj he'
        exact hvalid
      | succ j => exact hall j e' (by omega) he'

/-- Behind an empty slot a clean list has no event. -/
private theorem cleanList_zero {event : Event} (hslot : event.slot = 0#64) (l : List Event) :
    CleanList (event :: l) ↔ (event :: l).filter Event.valid = [] := by
  rw [List.filter_eq_nil_iff]
  constructor
  · intro h
    -- a valid first event with a zero value would be lost
    have hhead : event.valid = false := by
      rw [Bool.eq_false_iff]
      intro hv
      apply (h 0 event rfl hv).1
      unfold Event.slot at hslot
      rwa [hv, if_pos rfl] at hslot
    intro e he hv
    obtain ⟨i, hi⟩ := List.mem_iff_getElem?.mp he
    cases i with
    | zero =>
      obtain rfl := Option.some.inj hi
      rw [hhead] at hv
      cases hv
    | succ i =>
      -- a valid event behind an invalid one would not be reached
      have hzero := (h (i + 1) e hi hv).2 0 event (by omega) rfl
      rw [hhead] at hzero
      cases hzero
  · intro h i e hi hv
    exact absurd hv (h e (List.mem_iff_getElem?.mpr ⟨i, hi⟩))

/-- The bridge is told about a beginning of the valid events. -/
private theorem fdbSyncFrom_slots (netdev : ν) (l : List Event) :
    ∃ rest, (l.filter Event.valid).map (Event.notification netdev) =
      fdbSyncFrom (some netdev) (l.map Event.slot ++ [0#64]) ++ rest ∧
        (rest = [] ↔ CleanList l) := by
  induction l with
  | nil =>
    refine ⟨[], by simp [fdbSyncFrom], ⟨fun _ i e hi => ?_, fun _ => rfl⟩⟩
    cases hi
  | cons event l ih =>
    by_cases hslot : event.slot = 0#64
    -- a zero slot ends the loop, all events from here on are lost
    · refine ⟨((event :: l).filter Event.valid).map (Event.notification netdev), ?_, ?_⟩
      · rw [List.map_cons, List.cons_append, hslot, fdbSyncFrom, if_pos rfl, List.nil_append]
      · rw [List.map_eq_nil_iff, cleanList_zero hslot]
    -- a notification is sent, and the rest is that of the events behind it
    · obtain ⟨rest, heq, hclean⟩ := ih
      have hvalid : event.valid = true := by
        by_contra hv
        apply hslot
        unfold Event.slot
        rw [if_neg hv]
      have hvalue : event.slot = event.value := by
        unfold Event.slot
        rw [if_pos hvalid]
      rw [hvalue] at hslot
      refine ⟨rest, ?_, ?_⟩
      · rw [List.filter_cons_of_pos hvalid, List.map_cons, List.map_cons, List.cons_append, hvalue,
          fdbSyncFrom_value event _ hslot, heq, List.cons_append]
      · rw [hclean, cleanList_cons hvalid hslot]

/-- A block is clean as the list of its events. -/
private theorem cleanList_ofFn (b : Block) : CleanList (List.ofFn b) ↔ Clean b := by
  -- the list holds the events of the block by their index
  have hget : ∀ (i : Nat) (event : Event), (List.ofFn b)[i]? = some event ↔
      ∃ h : i < notifyEvents, b ⟨i, h⟩ = event := by
    intro i event
    rw [List.getElem?_ofFn]
    split
    · next h => simp [h]
    · next h => simp [h]
  constructor
  · intro h i hv
    obtain ⟨hne, hall⟩ := h i.val (b i) ((hget i.val (b i)).mpr ⟨i.isLt, rfl⟩) hv
    exact ⟨hne, fun j hj => hall j.val (b j) hj ((hget j.val (b j)).mpr ⟨j.isLt, rfl⟩)⟩
  · intro h i event hi hv
    obtain ⟨hlt, rfl⟩ := (hget i event).mp hi
    obtain ⟨hne, hall⟩ := h ⟨i, hlt⟩ hv
    refine ⟨hne, fun j event' hj hj' => ?_⟩
    obtain ⟨hltj, rfl⟩ := (hget j event').mp hj'
    exact hall ⟨j, hltj⟩ hj

/-- The bridge is told about the first valid events of a block, and about all of them exactly if the
    block is clean. -/
theorem fdbSync_workOf (netdev : ν) (b : Block) : ∃ rest, events netdev b =
    fdbSync (workOf netdev b) ++ rest ∧ (rest = [] ↔ Clean b) := by
  obtain ⟨rest, heq, hclean⟩ := fdbSyncFrom_slots netdev (List.ofFn b)
  have hsync : fdbSync (workOf netdev b) =
      fdbSyncFrom (some netdev) ((List.ofFn b).map Event.slot ++ [0#64]) := by
    unfold fdbSync
    rw [macs_workOf, ndev_workOf]
    -- with no valid event the work has no netdev, and the first slot is zero
    by_cases hany : ∃ i, (b i).valid = true
    · rw [if_pos hany]
    · rw [if_neg hany]
      have hpos : 0 < notifyEvents := by decide
      have hzero : (b ⟨0, hpos⟩).slot = 0#64 := by
        unfold Event.slot
        rw [if_neg fun hv => hany ⟨_, hv⟩]
      have hcons : List.ofFn b = b ⟨0, hpos⟩ :: List.ofFn fun i : Fin 9 => b i.succ :=
        List.ofFn_succ
      rw [hcons, List.map_cons, List.cons_append, hzero, fdbSyncFrom, if_pos rfl, fdbSyncFrom,
        if_pos rfl]
  refine ⟨rest, ?_, ?_⟩
  · rw [hsync]
    exact heq
  · rw [hclean, cleanList_ofFn]

end HandsomeMod.Native.Rtl839x.Notify
