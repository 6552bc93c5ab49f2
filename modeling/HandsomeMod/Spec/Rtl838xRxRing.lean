import HandsomeMod.ForStd.Ring
import HandsomeMod.Spec.Rtl838xRxSlots

/-!
# One receive ring

The frames of a ring that wait for the driver are those behind the ones that it has taken. The
switch completes a slot, and the driver hands one back, whether it passes the frame up or discards
it; other rings do not change.
-/

namespace HandsomeMod.Native.Rtl838x.Rx

open HandsomeMod.ForStd

variable {g : Cfg} {p : Priv} {r hw : Nat}

/-- What became of a frame. -/
inductive Item where
  /-- It was passed to the network stack, for the switch driver or not. -/
  | handedUp (dsa : Bool) (data : List UInt8)
  /-- It was counted as dropped. -/
  | dropped
  /-- `rtl838x_rb_cleanup` discarded it. -/
  | discarded

def Item.Matches (family : Family) (f : Frame) : Item → Prop
  | .handedUp dsa data => data = f.passedUp family dsa
  | .dropped => True
  | .discarded => True

/-- The switch writes a frame to the slot `j`. -/
def complete (p : Priv) (r j : Nat) (f : Frame) : Priv :=
  let h := p.rxHeader r j
  { p with
    mem := writeBytes p.mem h.buf.toNat f.bytes
    rxHeader := update2 p.rxHeader r j
      { h with len := BitVec.ofNat 16 f.bytes.length, cpuTag := f.cpuTag }
    rxR := update2 p.rxR r j (p.rxR r j &&& ~~~1#32) }

/-- The slot that the switch uses after the slot `j`. -/
def hwNext (p : Priv) (r j : Nat) : Nat := if p.rxR r j &&& wrap ≠ 0#32 then 0 else j + 1

/-- The ring `r` after the frames `completed`, of which `items` were taken. -/
structure RingOk (g : Cfg) (p : Priv) (r hw : Nat) (completed : List Frame) (items : List Item) :
    Prop where
  items_le : items.length ≤ completed.length
  completed_le : completed.length ≤ items.length + g.rxringlen
  cRx : p.cRx r = items.length % g.rxringlen
  hw : hw = completed.length % g.rxringlen
  inOrder : ∀ (i : Nat) (item : Item) (f : Frame), items[i]? = some item →
    completed[i]? = some f → item.Matches g.family f
  waiting : ∀ (i : Nat) (f : Frame), items.length ≤ i → completed[i]? = some f →
    p.rxR r (i % g.rxringlen) = g.word r (i % g.rxringlen) &&& ~~~1#32 ∧
    p.rxHeader r (i % g.rxringlen) = f.header (g.bufAddr r (i % g.rxringlen)) ∧
    bytesAt p.mem (g.bufAddr r (i % g.rxringlen)).toNat f.bytes.length = f.bytes
  free : ∀ i, completed.length ≤ i → i < items.length + g.rxringlen →
    p.rxR r (i % g.rxringlen) = g.word r (i % g.rxringlen) ∧
    p.rxHeader r (i % g.rxringlen) = resetHeader (g.bufAddr r (i % g.rxringlen))

/-- The place that is updated. -/
private theorem update2_self {α : Type} (f : Nat → Nat → α) (r j : Nat) (a : α) :
    update2 f r j a r j = a := by
  unfold update2
  rw [Function.update_self, Function.update_self]

/-- The other places are kept. -/
private theorem update2_of_ne {α : Type} (f : Nat → Nat → α) {r j r' j' : Nat} (a : α)
    (h : ¬(r' = r ∧ j' = j)) : update2 f r j a r' j' = f r' j' := by
  unfold update2
  by_cases hr : r' = r
  · subst hr
    rw [Function.update_self, Function.update_of_ne fun hj => h ⟨rfl, hj⟩]
  · rw [Function.update_of_ne hr]

namespace RingOk

variable {completed : List Frame} {items : List Item}

/-- The slot of a position belongs to the switch exactly if no frame waits there. -/
theorem owned_iff (h : RingOk g p r hw completed items) {i : Nat} (hi : items.length ≤ i)
    (hi' : i < items.length + g.rxringlen) :
    p.Owned r (i % g.rxringlen) ↔ completed.length ≤ i := by
  unfold Priv.Owned
  by_cases hlt : i < completed.length
  · obtain ⟨hword, -⟩ := h.waiting i _ hi (List.getElem?_eq_getElem hlt)
    rw [hword]
    exact ⟨fun hx => absurd (Ring.and_not_and_self _ _) hx, fun hx => absurd hlt (Nat.not_lt.mpr hx)⟩
  · have hge := Nat.le_of_not_lt hlt
    obtain ⟨hword, -⟩ := h.free i hge hi'
    rw [hword]
    exact ⟨fun _ => hge, fun _ => word_and_one g r _⟩

/-- The driver finds no frame exactly if it has taken all of them. -/
theorem owned_cRx_iff (h : RingOk g p r hw completed items) :
    p.Owned r (p.cRx r) ↔ items.length = completed.length := by
  have hpos := g.rxringlen_pos
  have hle := h.items_le
  rw [h.cRx, h.owned_iff (Nat.le_refl _) (by omega)]
  omega

/-- The switch finds a slot exactly if the ring is not full. -/
theorem owned_hw_iff (h : RingOk g p r hw completed items) :
    p.Owned r hw ↔ completed.length < items.length + g.rxringlen := by
  have hpos := g.rxringlen_pos
  have hle := h.items_le
  have hle' := h.completed_le
  rw [h.hw]
  constructor
  · intro howned
    by_contra hge
    -- a full ring: the next slot is the oldest one, which the driver has not given back
    have hfull : completed.length = items.length + g.rxringlen := by omega
    rw [hfull, Nat.add_mod_right, h.owned_iff (Nat.le_refl _) (by omega)] at howned
    omega
  · intro hlt
    exact (h.owned_iff hle hlt).mpr (Nat.le_refl _)

/-- A slot that the switch owns is as the setup left it. -/
theorem armed (h : RingOk g p r hw completed items) {j : Nat} (hj : j < g.rxringlen)
    (howned : p.Owned r j) :
    p.rxR r j = g.word r j ∧ p.rxHeader r j = resetHeader (g.bufAddr r j) := by
  obtain ⟨i, hi, hi', rfl⟩ := Ring.exists_position items.length hj
  exact h.free i ((h.owned_iff hi hi').mp howned) hi'

/-- What the driver does to another ring. -/
theorem congr {p' : Priv} (h : RingOk g p r hw completed items) (hR : p'.rxR r = p.rxR r)
    (hheader : p'.rxHeader r = p.rxHeader r) (hc : p'.cRx r = p.cRx r)
    (hmem : ∀ j < g.rxringlen, ∀ n ≤ ringBuffer,
      bytesAt p'.mem (g.bufAddr r j).toNat n = bytesAt p.mem (g.bufAddr r j).toNat n) :
    RingOk g p' r hw completed items where
  items_le := h.items_le
  completed_le := h.completed_le
  cRx := hc.trans h.cRx
  hw := h.hw
  inOrder := h.inOrder
  waiting i f hi hf := by
    obtain ⟨hword, hhdr, hbytes⟩ := h.waiting i f hi hf
    refine ⟨by rw [hR, hword], by rw [hheader, hhdr], ?_⟩
    rw [hmem _ (Nat.mod_lt _ g.rxringlen_pos) _ f.le_ringBuffer]
    exact hbytes
  free i hi hi' := by
    obtain ⟨hword, hhdr⟩ := h.free i hi hi'
    exact ⟨by rw [hR, hword], by rw [hheader, hhdr]⟩

/-- The switch completes a slot. -/
theorem complete (h : RingOk g p r hw completed items) (hr : r < g.rxrings)
    (howned : p.Owned r hw) (f : Frame) :
    RingOk g (Rx.complete p r hw f) r (hwNext p r hw) (completed ++ [f]) items := by
  have hpos := g.rxringlen_pos
  have hroom := h.owned_hw_iff.mp howned
  have hle := h.items_le
  obtain ⟨hword, hheader⟩ := h.free completed.length (Nat.le_refl _) hroom
  -- the descriptor written to is the last one of the ring if and only if it has the wrap bit
  have hnext : hwNext p r hw = (completed.length + 1) % g.rxringlen := by
    unfold hwNext
    rw [h.hw, hword]
    have hmod := Nat.mod_lt completed.length hpos
    by_cases hlast : completed.length % g.rxringlen = g.rxringlen - 1
    · rw [if_pos ((word_and_wrap g r _).mpr hlast), ← Nat.mod_add_mod, hlast,
        Nat.sub_add_cancel hpos, Nat.mod_self]
    · rw [if_neg (mt (word_and_wrap g r _).mp hlast), ← Nat.mod_add_mod,
        Nat.mod_eq_of_lt (show completed.length % g.rxringlen + 1 < g.rxringlen by omega)]
  have hbuf : (p.rxHeader r hw).buf = g.bufAddr r hw := by
    rw [h.hw, hheader]
    rfl
  -- the slots in use are all different, so only the completed one changes
  have hother : ∀ i, items.length ≤ i → i < items.length + g.rxringlen →
      i ≠ completed.length → i % g.rxringlen ≠ hw := by
    intro i hi hi' hne
    rw [h.hw]
    exact Ring.mod_ne hne hi hi' hle hroom
  constructor
  · rw [List.length_append]
    exact Nat.le_add_right_of_le hle
  · rw [List.length_append, List.length_singleton]
    omega
  · exact h.cRx
  · rw [hnext, List.length_append, List.length_singleton]
  · intro i item f' hi hf
    have hlt : i < completed.length :=
      Nat.lt_of_lt_of_le (List.getElem?_eq_some_iff.mp hi).1 hle
    rw [List.getElem?_append_left hlt] at hf
    exact h.inOrder i item f' hi hf
  · intro i f' hi hf
    unfold Rx.complete
    dsimp only
    rw [hbuf]
    -- the frame just received, or one that was waiting before
    by_cases hlast : i = completed.length
    · subst hlast
      rw [List.getElem?_append_right (Nat.le_refl _), Nat.sub_self] at hf
      obtain rfl := Option.some.inj hf
      rw [← h.hw, update2_self, update2_self]
      rw [← h.hw] at hword hheader
      refine ⟨by rw [hword], by rw [hheader]; rfl, ?_⟩
      exact bytesAt_writeBytes_self _ _ _
    · have hlt : i < completed.length := by
        have hlen := (List.getElem?_eq_some_iff.mp hf).1
        rw [List.length_append, List.length_singleton] at hlen
        omega
      rw [List.getElem?_append_left hlt] at hf
      have hcomp := h.completed_le
      have hne := hother i hi (by omega) hlast
      have hmod := Nat.mod_lt i hpos
      have hhw : hw < g.rxringlen := by
        rw [h.hw]
        exact Nat.mod_lt _ hpos
      rw [update2_of_ne _ _ fun hx => hne hx.2, update2_of_ne _ _ fun hx => hne hx.2,
        bytesAt_bufAddr_write hr hmod hr hhw (fun hx => hne hx.2) _ f.le_ringBuffer
          f'.le_ringBuffer]
      exact h.waiting i f' hi hf
  · intro i hi hi'
    rw [List.length_append, List.length_singleton] at hi
    have hne := hother i (by omega) hi' (by omega)
    unfold Rx.complete
    dsimp only
    rw [update2_of_ne _ _ fun hx => hne hx.2, update2_of_ne _ _ fun hx => hne hx.2]
    exact h.free i (by omega) hi'

/-- The driver hands the slot of the next frame back. -/
theorem rearm (h : RingOk g p r hw completed items) {f : Frame}
    (hf : completed[items.length]? = some f) {item : Item} (hitem : item.Matches g.family f) :
    RingOk g (Rx.rearm g p r (g.bufAddr r (p.cRx r))) r hw completed (items ++ [item]) := by
  have hpos := g.rxringlen_pos
  have hlt : items.length < completed.length := (List.getElem?_eq_some_iff.mp hf).1
  have hle := h.completed_le
  have hlen : (items ++ [item]).length = items.length + 1 := by simp
  constructor
  · omega
  · omega
  · unfold Rx.rearm
    dsimp only
    rw [Function.update_self, h.cRx, hlen, Nat.mod_add_mod]
  · exact h.hw
  · intro i item' f' hi hf'
    -- the item just added, or one taken before
    by_cases hlast : i = items.length
    · subst hlast
      rw [List.getElem?_append_right (Nat.le_refl _), Nat.sub_self] at hi
      obtain rfl := Option.some.inj hi
      obtain rfl := Option.some.inj (hf.symm.trans hf')
      exact hitem
    · have hlt' : i < items.length := by
        have := (List.getElem?_eq_some_iff.mp hi).1
        omega
      rw [List.getElem?_append_left hlt'] at hi
      exact h.inOrder i item' f' hi hf'
  · intro i f' hi hf'
    have hi' := (List.getElem?_eq_some_iff.mp hf').1
    have hne : i % g.rxringlen ≠ p.cRx r := by
      rw [h.cRx]
      exact Ring.mod_ne (by omega) (d := items.length) (by omega) (by omega) (Nat.le_refl _) (by omega)
    unfold Rx.rearm
    dsimp only
    rw [update2_of_ne _ _ fun hx => hne hx.2, update2_of_ne _ _ fun hx => hne hx.2]
    exact h.waiting i f' (by omega) hf'
  · intro i hi hi'
    unfold Rx.rearm
    dsimp only
    -- the slot given back is the one that comes free at the end of the ring
    by_cases hlast : i = items.length + g.rxringlen
    · rw [hlast, Nat.add_mod_right, ← h.cRx, update2_self, update2_self, rearmWord_eq]
      exact ⟨rfl, rfl⟩
    · have hne : i % g.rxringlen ≠ p.cRx r := by
        rw [h.cRx]
        exact Ring.mod_ne (by omega) (d := items.length) (by omega) (by omega) (Nat.le_refl _) (by omega)
      rw [update2_of_ne _ _ fun hx => hne hx.2, update2_of_ne _ _ fun hx => hne hx.2]
      exact h.free i hi (by omega)

end RingOk

end HandsomeMod.Native.Rtl838x.Rx
