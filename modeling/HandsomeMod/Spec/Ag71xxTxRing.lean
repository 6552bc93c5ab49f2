import HandsomeMod.Native.Ag71xx

/-!
# The transmit ring holds a queue of frames

Positions count descriptors without wrapping. The ring holds the frames from `d` to `c`; the
hardware has completed the descriptors in front of `h`.
-/

namespace HandsomeMod.Native.Ag71xx

open ForStd

variable {g : TxCfg} {r : TxRing} {d c h : Nat} {pk : List (Nat × Nat)}

/-- Completing a descriptor changes this one only. -/
theorem TxRing.setEmpty_desc (r : TxRing) (i : Nat) :
    (r.setEmpty i).desc = Function.update r.desc i { r.desc i with empty := true } := rfl

/-- Releasing a frame clears the buffer of its last descriptor. -/
theorem TxRing.release_buf (r : TxRing) (i n : Nat) :
    (r.release i n).buf = Function.update r.buf i { r.buf i with skb := none } := rfl

/-- The number of descriptors of a list of frames. -/
def descs (pk : List (Nat × Nat)) : Nat := (pk.map Prod.snd).sum

theorem descs_cons (p : Nat × Nat) (pk : List (Nat × Nat)) : descs (p :: pk) = p.2 + descs pk := by
  rw [descs, List.map_cons, List.sum_cons, descs]

/-- The descriptors of two lists of frames are added. -/
theorem descs_append (pk pk' : List (Nat × Nat)) : descs (pk ++ pk') = descs pk + descs pk' := by
  rw [descs, List.map_append, List.sum_append, descs, descs]

/-- The frames lie one behind the other from `d` on, each with its `sk_buff` at its last
    descriptor. -/
def Frames (g : TxCfg) (r : TxRing) : Nat → List (Nat × Nat) → Prop
  | _, [] => True
  | d, (skb, n) :: pk => 0 < n ∧
    (∀ p, d ≤ p → p + 1 < d + n → (r.buf (p % g.ringSize)).skb = none) ∧
    (r.buf ((d + n - 1) % g.ringSize)).skb = some skb ∧ Frames g r (d + n) pk

/-- The ring holds the frames `pk`, given as `sk_buff` and number of descriptors. -/
structure TxRep (g : TxCfg) (r : TxRing) (d c h : Nat) (pk : List (Nat × Nat)) : Prop where
  order_le : g.order ≤ 31
  dirty_eq : r.dirty = UInt32.ofNat d
  curr_eq : r.curr = UInt32.ofNat c
  le_done : d ≤ h
  done_le : h ≤ c
  le_size : c ≤ d + g.ringSize
  total : d + descs pk = c
  done : ∀ p, d ≤ p → p < h → (r.desc (p % g.ringSize)).empty = true
  busy : ∀ p, h ≤ p → p < c → (r.desc (p % g.ringSize)).empty = false
  free : ∀ p, c ≤ p → p < d + g.ringSize →
    (r.desc (p % g.ringSize)).empty = true ∧ (r.buf (p % g.ringSize)).skb = none
  frames : Frames g r d pk

/-- The frames of a ring are seen in the buffers from the first to the last one. -/
theorem Frames.congr {r r' : TxRing} {d : Nat} {pk : List (Nat × Nat)} (hf : Frames g r d pk)
    (hbuf : ∀ p, d ≤ p → p < d + descs pk →
      (r'.buf (p % g.ringSize)).skb = (r.buf (p % g.ringSize)).skb) : Frames g r' d pk := by
  induction pk generalizing d with
  | nil => trivial
  | cons f pk ih =>
    obtain ⟨skb, n⟩ := f
    obtain ⟨hn, hnone, hsome, hrest⟩ := hf
    rw [descs_cons] at hbuf
    simp only at hbuf
    -- the buffers of the first frame and those of the others are all in the range
    refine ⟨hn, ?_, ?_, ih hrest ?_⟩
    · intro p hp hlt
      rw [hbuf p hp (by omega)]
      exact hnone p hp hlt
    · rw [hbuf _ (by omega) (by omega)]
      exact hsome
    · intro p hp hlt
      exact hbuf p (by omega) (by omega)

/-- Frames that follow one another. -/
theorem Frames.append {r : TxRing} {d : Nat} {pk pk' : List (Nat × Nat)} (hf : Frames g r d pk)
    (hf' : Frames g r (d + descs pk) pk') : Frames g r d (pk ++ pk') := by
  induction pk generalizing d with
  | nil => exact hf'
  | cons f pk ih =>
    obtain ⟨skb, n⟩ := f
    obtain ⟨hn, hnone, hsome, hrest⟩ := hf
    rw [descs_cons, ← Nat.add_assoc] at hf'
    exact ⟨hn, hnone, hsome, ih hrest hf'⟩

section Rep

variable (hr : TxRep g r d c h pk)

include hr

/-- The slots of a ring are told apart by its counters. -/
theorem TxRep.ringSize_lt : g.ringSize ≤ 2 ^ 31 := Nat.pow_le_pow_right Nat.two_pos hr.order_le

/-- The slots from the oldest descriptor on. -/
theorem TxRep.slot_dirty (k : Nat) :
    Ring.slot g.order (r.dirty + UInt32.ofNat k) = (d + k) % g.ringSize := by
  have hle := hr.order_le
  rw [hr.dirty_eq, ← UInt32.ofNat_add, Ring.slot_ofNat (by omega)]
  rfl

/-- The slots from the next free descriptor on. -/
theorem TxRep.slot_curr (k : Nat) :
    Ring.slot g.order (r.curr + UInt32.ofNat k) = (c + k) % g.ringSize := by
  have hle := hr.order_le
  rw [hr.curr_eq, ← UInt32.ofNat_add, Ring.slot_ofNat (by omega)]
  rfl

/-- The distance of the counters is the number of descriptors that are in use. -/
theorem TxRep.sub_eq : (r.curr - r.dirty).toNat = descs pk := by
  have hsize := hr.ringSize_lt
  have hle := hr.le_size
  have htotal := hr.total
  rw [hr.curr_eq, hr.dirty_eq, Ring.sub_ofNat (by omega) (by omega)]
  omega

/-- The clean-up comes to the next free descriptor behind the last frame only. -/
theorem TxRep.add_eq_curr {k : Nat} (hk : k ≤ descs pk) :
    r.dirty + UInt32.ofNat k = r.curr ↔ k = descs pk := by
  have hsize := hr.ringSize_lt
  have hle := hr.le_size
  have htotal := hr.total
  rw [hr.curr_eq, hr.dirty_eq, ← UInt32.ofNat_add]
  constructor
  · intro heq
    have hinj := (Ring.ofNat_inj (d := d + k) (c := c) (by omega) (by omega)).mp heq.symm
    omega
  · intro heq
    rw [show d + k = c by omega]

end Rep

/-! ### One descriptor of the flush -/

/-- Setting DESC_EMPTY of the descriptor at `p` completes it. -/
theorem TxRep.mark (hr : TxRep g r d c h pk) {p : Nat} (hp : d ≤ p) (hle : p ≤ h) (hlt : p < c) :
    TxRep g (r.setEmpty (p % g.ringSize)) d c (max h (p + 1)) pk := by
  have hsize := hr.le_size
  have hdone := hr.done_le
  -- of the slots in the ring only that of `p` changes its flag
  have hread : ∀ q, d ≤ q → q < d + g.ringSize →
      ((r.setEmpty (p % g.ringSize)).desc (q % g.ringSize)).empty =
        if q = p then true else (r.desc (q % g.ringSize)).empty := by
    intro q hq hq'
    rw [TxRing.setEmpty_desc, Ring.update_mod r.desc _ (by omega) (by omega)]
    split <;> rfl
  constructor
  · exact hr.order_le
  · exact hr.dirty_eq
  · exact hr.curr_eq
  · exact Nat.le_trans hr.le_done (Nat.le_max_left ..)
  · omega
  · exact hr.le_size
  · exact hr.total
  · intro q hq hq'
    rw [hread q hq (by omega)]
    split
    · rfl
    · exact hr.done q hq (by omega)
  · intro q hq hq'
    rw [hread q (by omega) (by omega), if_neg (by omega)]
    exact hr.busy q (by omega) hq'
  · intro q hq hq'
    obtain ⟨hempty, hskb⟩ := hr.free q hq hq'
    refine ⟨?_, hskb⟩
    rw [hread q (by omega) hq', if_neg (by omega)]
    exact hempty
  · exact hr.frames.congr fun _ _ _ => rfl

/-! ### The first frame leaves the ring -/

/-- Releasing the oldest frame leaves a ring with the others. -/
theorem TxRep.pop {skb n : Nat} (hr : TxRep g r d c h ((skb, n) :: pk)) (hdone : d + n ≤ h) :
    TxRep g (r.release ((d + n - 1) % g.ringSize) n) (d + n) c h pk := by
  have hsize := hr.le_size
  have hle := hr.done_le
  have htotal := hr.total
  obtain ⟨hn, hnone, hsome, hrest⟩ := hr.frames
  rw [descs_cons] at htotal
  simp only at htotal
  -- only the slot of the last descriptor gives its `skb` back
  have hread : ∀ p, d ≤ p → p < d + g.ringSize → p ≠ d + n - 1 →
      (r.release ((d + n - 1) % g.ringSize) n).buf (p % g.ringSize) = r.buf (p % g.ringSize) := by
    intro p hp hp' hne
    rw [TxRing.release_buf, Ring.update_mod r.buf _ (by omega) (by omega), if_neg hne]
  constructor
  · exact hr.order_le
  · show r.dirty + UInt32.ofNat n = UInt32.ofNat (d + n)
    rw [hr.dirty_eq, UInt32.ofNat_add]
  · exact hr.curr_eq
  · exact hdone
  · exact hle
  · omega
  · omega
  · intro p hp hp'
    exact hr.done p (by omega) hp'
  · exact hr.busy
  · intro p hp hp'
    -- free: the slots that were, and those of the frame one round later
    by_cases hwrap : p < d + g.ringSize
    · obtain ⟨hempty, hskb⟩ := hr.free p hp hwrap
      refine ⟨hempty, ?_⟩
      rw [hread p (by omega) hwrap (by omega)]
      exact hskb
    · -- the slots of the frame that left
      have hmod : p % g.ringSize = (p - g.ringSize) % g.ringSize :=
        (Nat.mod_eq_sub_mod (by omega))
      rw [hmod]
      refine ⟨hr.done _ (by omega) (by omega), ?_⟩
      by_cases hlast : p - g.ringSize = d + n - 1
      · rw [hlast, TxRing.release_buf, Function.update_self]
      · rw [hread _ (by omega) (by omega) hlast]
        exact hnone _ (by omega) (by omega)
  · apply hrest.congr
    intro p hp hp'
    rw [hread p (by omega) (by omega) (by omega)]

/-! ### `ag71xx_tx_packets` -/

/-- What `ag71xx_tx_packets` has done: the frames `pk1` left the ring in order, `pk2` stay. -/
structure Sent (g : TxCfg) (flush : Bool) (d c h : Nat) (pk : List (Nat × Nat)) (r : TxRing)
    (freed : List Nat) (pk1 pk2 : List (Nat × Nat)) : Prop where
  split : pk = pk1 ++ pk2
  freed_eq : freed = pk1.map Prod.fst
  rep : ∃ h', TxRep g r (d + descs pk1) c h' pk2 ∧ (flush = false → h' = h)
  all : flush = true → pk2 = []
  /-- The hardware still has a descriptor of the first frame that stays. -/
  waits : ∀ f rest, pk2 = f :: rest → h < d + descs pk1 + f.2

/-- The loop stands `k` descriptors behind `dirty`, inside the first frame. -/
private theorem txPacketsLoop_spec (flush : Bool) {fuel k : Nat} (freed : List Nat)
    (hr : TxRep g r d c h pk) (hfuel : fuel = descs pk - k)
    (hk : pk = [] ∧ k = 0 ∨ ∃ f rest, pk = f :: rest ∧ k < f.2) (hkh : d + k ≤ h) :
    ∃ pk1 pk2, (txPacketsLoop g flush fuel k r freed).2 = freed ++ pk1.map Prod.fst ∧
      Sent g flush d c h pk (txPacketsLoop g flush fuel k r freed).1 (pk1.map Prod.fst) pk1 pk2 := by
  -- Induction on the descriptors that are left; a frame leaves `pk` at its last one.
  induction fuel generalizing r d h pk k freed with
  | zero =>
    have hnil : pk = [] := by
      obtain ⟨hnil, -⟩ | ⟨f, rest, rfl, hlt⟩ := hk
      · exact hnil
      · rw [descs_cons] at hfuel
        omega
    subst hnil
    exact ⟨[], [], (List.append_nil _).symm, rfl, rfl, ⟨h, hr, fun _ => rfl⟩, fun _ => rfl,
      fun _ _ hcons => by cases hcons⟩
  | succ fuel ih =>
    obtain ⟨rfl, rfl⟩ | ⟨⟨skb, n⟩, rest, rfl, hlt⟩ := hk
    · simp [descs] at hfuel
    · have hdescs := descs_cons (skb, n) rest
      have htotal := hr.total
      have hle := hr.done_le
      have hsize := hr.le_size
      simp only at hlt hdescs
      -- the loop is not at `curr` as long as a frame is left
      have hne : ¬r.dirty + UInt32.ofNat k = r.curr := by
        rw [hr.add_eq_curr (by omega)]
        omega
      rw [txPacketsLoop, if_neg hne, hr.slot_dirty]
      by_cases hstop : (!flush && !(r.desc ((d + k) % g.ringSize)).empty) = true
      · -- the hardware still has this descriptor
        rw [if_pos hstop]
        have hflush : flush = false := by
          cases flush with
          | false => rfl
          | true => cases hstop
        refine ⟨[], _, (List.append_nil _).symm, rfl, rfl, ⟨h, ?_, fun _ => rfl⟩, ?_, ?_⟩
        · simpa [descs] using hr
        · intro htrue
          rw [hflush] at htrue
          cases htrue
        · rintro f rest' hcons
          obtain ⟨rfl, -⟩ := List.cons.inj hcons
          show h < d + 0 + n
          -- a completed descriptor would not have stopped the loop
          by_contra hge
          have hempty := hr.done (d + k) (by omega) (by omega)
          rw [hempty, hflush] at hstop
          cases hstop
      · rw [if_neg hstop]
        -- with `flush` the descriptor is marked empty first
        have hmarked : ∃ h', TxRep g (if flush then r.setEmpty ((d + k) % g.ringSize) else r)
            d c h' ((skb, n) :: rest) ∧ d + k + 1 ≤ h' ∧ h ≤ h' ∧ (flush = false → h' = h) := by
          cases flush with
          | true =>
            exact ⟨_, hr.mark (by omega) hkh (by omega), Nat.le_max_right .., Nat.le_max_left ..,
              fun hf => by cases hf⟩
          | false =>
            refine ⟨h, hr, ?_, Nat.le_refl h, fun _ => rfl⟩
            by_contra hbusy
            have hfalse := hr.busy (d + k) (by omega) (by omega)
            rw [hfalse] at hstop
            exact hstop rfl
        obtain ⟨h', hr', hh', hge, hsame⟩ := hmarked
        have hbuf : ∀ i, (if flush then r.setEmpty ((d + k) % g.ringSize) else r).buf i = r.buf i := by
          intro i
          cases flush <;> rfl
        obtain ⟨hn, hnone, hsome, hrest⟩ := hr'.frames
        by_cases hlast : k + 1 = n
        · -- the last descriptor of the frame
          have hpos : d + k = d + n - 1 := by omega
          rw [← hpos] at hsome
          have hpop := hr'.pop (by omega)
          simp only
          rw [hsome, hlast]
          simp only
          rw [← hpos] at hpop
          obtain ⟨pk1, pk2, hfreed, hsent⟩ := ih (freed ++ [skb]) hpop (k := 0) (by omega) (by
            cases hcase : rest with
            | nil => exact .inl ⟨rfl, rfl⟩
            | cons f rest' =>
              rw [hcase] at hrest
              exact .inr ⟨f, rest', rfl, hrest.1⟩) (by omega)
          obtain ⟨hsplit, -, hrep, hall, hwaits⟩ := hsent
          obtain ⟨h'', hrep, hsame'⟩ := hrep
          refine ⟨(skb, n) :: pk1, pk2, ?_, ?_, rfl, ⟨h'', ?_, ?_⟩, hall, ?_⟩
          · rw [hfreed, List.map_cons, List.append_assoc]
            rfl
          · rw [hsplit]
            rfl
          · rw [descs_cons, ← Nat.add_assoc]
            exact hrep
          · intro hf
            rw [hsame' hf, hsame hf]
          · intro f' rest' hcons
            have hlt' := hwaits f' rest' hcons
            rw [descs_cons]
            omega
        -- a descriptor inside the frame has no `skb`
        · have hskb := hnone (d + k) (by omega) (by omega)
          simp only
          rw [hskb]
          simp only
          obtain ⟨pk1, pk2, hfreed, hsent⟩ := ih freed hr' (k := k + 1) (by omega)
            (.inr ⟨(skb, n), rest, rfl, by simp only; omega⟩) (by omega)
          obtain ⟨hsplit, hmap, hrep, hall, hwaits⟩ := hsent
          obtain ⟨h'', hrep, hsame'⟩ := hrep
          refine ⟨pk1, pk2, hfreed, hsplit, hmap, ⟨h'', hrep, ?_⟩, hall, ?_⟩
          · intro hf
            rw [hsame' hf, hsame hf]
          · intro f' rest' hcons
            have hlt' := hwaits f' rest' hcons
            omega

/-- `ag71xx_tx_packets` frees the first frames of the ring, in order. -/
theorem txPackets_spec (flush : Bool) (hr : TxRep g r d c h pk) : ∃ pk1 pk2,
    Sent g flush d c h pk (txPackets g flush r).1 (txPackets g flush r).2.1 pk1 pk2 := by
  have hstart : pk = [] ∧ 0 = 0 ∨ ∃ f rest, pk = f :: rest ∧ 0 < f.2 := by
    have hframes := hr.frames
    cases pk with
    | nil => exact .inl ⟨rfl, rfl⟩
    | cons f rest => exact .inr ⟨f, rest, rfl, hframes.1⟩
  obtain ⟨pk1, pk2, hfreed, hsent⟩ := txPacketsLoop_spec flush [] hr hr.sub_eq hstart hr.le_done
  rw [← hfreed.trans (List.nil_append _)] at hsent
  exact ⟨pk1, pk2, hsent⟩

end HandsomeMod.Native.Ag71xx
