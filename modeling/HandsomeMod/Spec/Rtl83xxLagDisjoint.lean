import HandsomeMod.ForStd.Run
import HandsomeMod.Spec.Rtl83xxLagOps

/-!
# Disjoint link aggregation groups

The groups stay disjoint, with one slot for each master and registers that agree, as long as the
notifications are harmless. The test for a port that is in a group already looks at the bit of
the group's number, so that it misses such a port and rejects others.
-/

namespace HandsomeMod.Native.Rtl83xx.Lag

open HandsomeMod.ForStd

variable {δ : Type} {f : Family} {s : Priv δ} {sw : Switch δ} {info : Changeupper δ}

/-! ### Slot and port of a notification -/

/-- The slot of a notification: the first that is free or has the master. -/
structure Slot (f : Family) (s : Priv δ) (upper : δ) (i : Nat) : Prop where
  lt : i < f.nLags
  fits : s.lagDevs i = none ∨ s.lagDevs i = some upper
  first : ∀ k < i, s.lagDevs k ≠ none ∧ s.lagDevs k ≠ some upper

/-- A master has one slot. -/
theorem Slot.unique {upper : δ} {i j : Nat} (hi : Slot f s upper i) (hj : Slot f s upper j) :
    i = j := by
  obtain hlt | heq | hgt := lt_trichotomy i j
  · obtain hfit | hfit := hi.fits
    · exact absurd hfit (hj.first i hlt).1
    · exact absurd hfit (hj.first i hlt).2
  · exact heq
  · obtain hfit | hfit := hj.fits
    · exact absurd hfit (hi.first j hgt).1
    · exact absurd hfit (hi.first j hgt).2

/-- The port of a device: the first whose slave it is. -/
structure PortOf (sw : Switch δ) (ndev : δ) (p : Nat) : Prop where
  lt : p < sw.family.cpuPort
  slave : ∃ port, sw.dp p = some port ∧ port.slave = some ndev
  first : ∀ k < p, ∃ port, sw.dp k = some port ∧ port.slave ≠ some ndev

/-- A device has one port. -/
theorem PortOf.unique {ndev : δ} {p q : Nat} (hp : PortOf sw ndev p) (hq : PortOf sw ndev q) :
    p = q := by
  have hno : ∀ p q, PortOf sw ndev p → PortOf sw ndev q → ¬p < q := by
    intro p q hp hq hlt
    obtain ⟨port, hdp, heq⟩ := hp.slave
    obtain ⟨port', hdp', hne⟩ := hq.first p hlt
    rw [hdp, Option.some_inj] at hdp'
    exact hne (hdp' ▸ heq)
  exact le_antisymm (Nat.le_of_not_lt (hno q p hq hp)) (Nat.le_of_not_lt (hno p q hp hq))

/-- The state in which a link calls `rtl83xx_lag_add`. -/
def Priv.claimed (s : Priv δ) (i : Nat) (upper : δ) : Priv δ :=
  if (s.lagDevs i).isNone then { s with lagDevs := Function.update s.lagDevs i (some upper) } else s

/-- Taking a slot writes the master to it. -/
theorem Slot.claimed_lagDevs {upper : δ} {i : Nat} (h : Slot f s upper i) :
    s.claimed i upper = { s with lagDevs := Function.update s.lagDevs i (some upper) } := by
  unfold Priv.claimed
  obtain hnone | hsome := h.fits
  · simp [hnone]
  · have hsame : Function.update s.lagDevs i (some upper) = s.lagDevs := by
      rw [← hsome, Function.update_eq_self]
    simp [hsome, hsame]

/-! ### One notification -/

/-- What a notification has to ensure. -/
structure Good (sw : Switch δ) (s : Priv δ) (out : Outcome δ) : Prop where
  ok : LagsOk sw.family out.priv
  accessed : ∀ k ∈ out.accessed, k < sw.family.nLags
  rejected : out.err ≠ none → out.priv = s

/-- A link is harmless if it is rejected with the slot taken already, or not rejected and fits. -/
def LinkHarmless (f : Family) (s : Priv δ) (i p : Nat) (upper : δ) : Prop :=
  (s.Blocked f ∧ s.lagDevs i = some upper) ∨ (¬s.Blocked f ∧ LinkFits f s i p upper)

/-- The condition under which a notification in state `s` does what it has to. -/
structure Harmless (sw : Switch δ) (s : Priv δ) (info : Changeupper δ) : Prop where
  /-- The port search meets no `NULL` pointer. -/
  dp : ∀ p < sw.family.cpuPort, sw.dp p = none → ∃ k < p, PortOf sw info.ndev k
  /-- There is a slot, and the change fits. -/
  slot : ∀ p, PortOf sw info.ndev p → ∃ i, Slot sw.family s info.upper i ∧
    if info.linking then LinkHarmless sw.family s i p info.upper
    else s.Member i p → ¬Overlap sw.family i p

/-- A search that finds a slot reads slots only. -/
private theorem accessed_lt {f : Family} {i : Nat} (hi : i < f.nLags) :
    ∀ k ∈ List.range (min (i + 1) f.nLags) ++ [i], k < f.nLags := by
  intro k hk
  simp only [List.mem_append, List.mem_range, List.mem_singleton] at hk
  omega

/-- A link on the slot of its master. -/
private theorem link_good_iff {i p : Nat} {out : Outcome δ} (h : LagsOk sw.family s)
    (hslot : Slot sw.family s info.upper i) (hp : p < sw.family.cpuPort)
    (hout : (match lagAdd sw.family (s.claimed i info.upper) i p with
      | .error _ => some
        { err := some .einval, accessed := List.range (min (i + 1) sw.family.nLags) ++ [i]
          priv := s.claimed i info.upper : Outcome δ }
      | .ok s => some
        { err := none, accessed := List.range (min (i + 1) sw.family.nLags) ++ [i]
          priv := s }) = some out) :
    Good sw s out ↔ LinkHarmless sw.family s i p info.upper := by
  have hclaimed := hslot.claimed_lagDevs
  have hblocked : (s.claimed i info.upper).Blocked sw.family ↔ s.Blocked sw.family := by
    rw [hclaimed]
    exact Iff.rfl
  obtain ⟨hb, heq⟩ | ⟨hb, heq⟩ := lagAdd_cases (s := s.claimed i info.upper) hslot.lt hp
  · -- rejected: the slot must have been the master's before
    rw [heq] at hout
    obtain rfl := Option.some.inj hout
    rw [hblocked] at hb
    constructor
    · intro hgood
      have hsame : s.claimed i info.upper = s := hgood.rejected (Option.some_ne_none _)
      refine Or.inl ⟨hb, ?_⟩
      have hdev := congrFun (congrArg Priv.lagDevs hsame) i
      rw [hclaimed] at hdev
      dsimp only at hdev
      rw [Function.update_self] at hdev
      exact hdev.symm
    · rintro (⟨-, hdev⟩ | ⟨hno, -⟩)
      · have hsame : s.claimed i info.upper = s := by
          rw [hclaimed, ← hdev, Function.update_eq_self]
        exact ⟨by rwa [hsame], accessed_lt hslot.lt, fun _ => hsame⟩
      · exact absurd hb hno
  -- accepted: the port is added to the slot
  · rw [heq] at hout
    obtain rfl := Option.some.inj hout
    rw [hblocked] at hb
    have hstate : (s.claimed i info.upper).added sw.family i p =
        s.linked sw.family i p info.upper := by
      rw [hclaimed]
      rfl
    have hiff := linked_iff h hslot.lt hp hslot.fits
    constructor
    · intro hgood
      refine Or.inr ⟨hb, hiff.mp ?_⟩
      rw [← hstate]
      exact hgood.ok
    · rintro (⟨hyes, -⟩ | ⟨-, hfits⟩)
      · exact absurd hyes hb
      · refine ⟨?_, accessed_lt hslot.lt, fun hne => absurd rfl hne⟩
        rw [hstate]
        exact hiff.mpr hfits

/-- An unlink on the slot that the search found. -/
private theorem unlink_good_iff {i p : Nat} {out : Outcome δ} (h : LagsOk sw.family s)
    (hslot : Slot sw.family s info.upper i) (hp : p < sw.family.cpuPort)
    (hout : (match lagDel sw.family s i p with
      | .error _ => some
        { err := some .einval, accessed := List.range (min (i + 1) sw.family.nLags) ++ [i]
          priv := s : Outcome δ }
      | .ok s => some
        { err := none, accessed := List.range (min (i + 1) sw.family.nLags) ++ [i]
          priv := if s.lagsPortMembers i = 0#64 then
              { s with lagDevs := Function.update s.lagDevs i none }
            else s }) = some out) :
    Good sw s out ↔ (s.Member i p → ¬Overlap sw.family i p) := by
  obtain ⟨hmem, heq⟩ | ⟨hmem, heq⟩ := lagDel_cases (s := s) hslot.lt hp
  -- no member: refused, and nothing is written
  · rw [heq] at hout
    obtain rfl := Option.some.inj hout
    exact ⟨fun _ hyes => absurd hyes hmem, fun _ => ⟨h, accessed_lt hslot.lt, fun _ => rfl⟩⟩
  · rw [heq] at hout
    obtain rfl := Option.some.inj hout
    have hstate : (if (s.removed sw.family i p).lagsPortMembers i = 0#64 then
          { s.removed sw.family i p with
            lagDevs := Function.update (s.removed sw.family i p).lagDevs i none }
        else s.removed sw.family i p) = s.unlinked sw.family i p := by
      unfold Priv.unlinked
      dsimp only
      split <;> rfl
    have hiff := unlinked_iff h hslot.lt hp hmem
    constructor
    · intro hgood _
      refine hiff.mp ?_
      rw [← hstate]
      exact hgood.ok
    · intro hover
      refine ⟨?_, accessed_lt hslot.lt, fun hne => absurd rfl hne⟩
      dsimp only
      rw [hstate]
      exact hiff.mpr (hover hmem)

/-! ### The searches of a notification -/

variable [DecidableEq δ]

/-- The search finds the slot of a master, or there is none. -/
private theorem findSlot_cases (f : Family) (s : Priv δ) (upper : δ) :
    Slot f s upper (findSlot f s upper) ∨
      (findSlot f s upper = f.nLags ∧ ∀ i, ¬Slot f s upper i) := by
  unfold findSlot
  generalize hp : (fun i => (s.lagDevs i).isNone || decide (s.lagDevs i = some upper)) = p
  have hpi : ∀ i, p i = true ↔ s.lagDevs i = none ∨ s.lagDevs i = some upper := by
    intro i
    rw [← hp]
    simp
  -- the first slot that is free or has this master, or the number of slots
  by_cases hlt : (List.range f.nLags).findIdx p < (List.range f.nLags).length
  · left
    have hget := List.findIdx_getElem (w := hlt)
    rw [List.getElem_range, hpi] at hget
    refine ⟨by rwa [List.length_range] at hlt, hget, fun k hk => ?_⟩
    have hnot := List.not_of_lt_findIdx hk
    rw [List.getElem_range, Bool.eq_false_iff, ne_eq, hpi] at hnot
    exact not_or.mp hnot
  · right
    have hlen : (List.range f.nLags).findIdx p = (List.range f.nLags).length :=
      le_antisymm List.findIdx_le_length (Nat.le_of_not_lt hlt)
    refine ⟨hlen.trans List.length_range, fun i hi => ?_⟩
    · have hno := List.findIdx_eq_length.mp hlen i (List.mem_range.mpr hi.lt)
      rw [(hpi i).mpr hi.fits] at hno
      cases hno

/-- Entry `k` of the port list is a port of another device. -/
def OtherAt (ndev : δ) (l : List (Option (DsaPort δ))) (k : Nat) : Prop :=
  ∃ port : DsaPort δ, l[k]? = some (some port) ∧ port.slave ≠ some ndev

/-- The three ends of the port search. -/
private theorem findPort_list (ndev : δ) (l : List (Option (DsaPort δ))) :
    (findPort ndev l = none ∧ ∃ p : Nat, l[p]? = some none ∧ ∀ k < p, OtherAt ndev l k) ∨
    (findPort ndev l = some none ∧ ∀ k < l.length, OtherAt ndev l k) ∨
    (∃ (p : Nat) (port : DsaPort δ), findPort ndev l = some (some port) ∧
      l[p]? = some (some port) ∧ port.slave = some ndev ∧ ∀ k < p, OtherAt ndev l k) := by
  -- the loop over the ports: it stops at a port without `dp`, or at the port of the device
  induction l with
  | nil => exact Or.inr (Or.inl ⟨rfl, fun k hk => absurd hk (Nat.not_lt_zero k)⟩)
  | cons dp l ih =>
    cases dp with
    | none => exact Or.inl ⟨rfl, 0, rfl, fun k hk => absurd hk (Nat.not_lt_zero k)⟩
    | some port =>
      unfold findPort
      by_cases hslave : port.slave = some ndev
      · rw [if_pos hslave]
        exact Or.inr (Or.inr ⟨0, port, rfl, rfl, hslave, fun k hk => absurd hk (Nat.not_lt_zero k)⟩)
      · rw [if_neg hslave]
        -- the head is one more port before the end
        have hcons : ∀ n, (∀ k < n, OtherAt ndev l k) →
            ∀ k < n + 1, OtherAt ndev (some port :: l) k := by
          intro n hn k hk
          cases k with
          | zero => exact ⟨port, rfl, hslave⟩
          | succ k => exact hn k (by omega)
        obtain ⟨heq, p, hp, hfirst⟩ | ⟨heq, hall⟩ | ⟨p, q, heq, hp, hq, hfirst⟩ := ih
        · exact Or.inl ⟨heq, p + 1, hp, hcons p hfirst⟩
        · exact Or.inr (Or.inl ⟨heq, hcons l.length hall⟩)
        · exact Or.inr (Or.inr ⟨p + 1, q, heq, hp, hq, hcons p hfirst⟩)

/-- What the port search of a notification finds. -/
private theorem findPort_cases (sw : Switch δ) (ndev : δ) :
    (findPort ndev ((List.range sw.family.cpuPort).map sw.dp) = none ∧
      ∃ p < sw.family.cpuPort, sw.dp p = none ∧ ∀ k < p, ¬PortOf sw ndev k) ∨
    (findPort ndev ((List.range sw.family.cpuPort).map sw.dp) = some none ∧
      (∀ p < sw.family.cpuPort, sw.dp p ≠ none) ∧ ∀ p, ¬PortOf sw ndev p) ∨
    (∃ port : DsaPort δ,
      findPort ndev ((List.range sw.family.cpuPort).map sw.dp) = some (some port) ∧
      PortOf sw ndev port.index ∧ ∀ p < port.index, sw.dp p ≠ none) := by
  have hget : ∀ k dp, ((List.range sw.family.cpuPort).map sw.dp)[k]? = some dp →
      k < sw.family.cpuPort ∧ sw.dp k = dp := by
    intro k dp hk
    rw [List.getElem?_map, Option.map_eq_some_iff] at hk
    obtain ⟨j, hj, hdp⟩ := hk
    obtain ⟨hlt, rfl⟩ := List.getElem?_eq_some_iff.mp hj
    rw [List.length_range] at hlt
    rw [List.getElem_range] at hdp
    exact ⟨hlt, hdp⟩
  have hother : ∀ k, OtherAt ndev ((List.range sw.family.cpuPort).map sw.dp) k →
      ∃ port, sw.dp k = some port ∧ port.slave ≠ some ndev := by
    rintro k ⟨port, hk, hne⟩
    exact ⟨port, (hget k _ hk).2, hne⟩
  -- a port that the loop has passed is not the one of the netdev
  have hnot : ∀ k, OtherAt ndev ((List.range sw.family.cpuPort).map sw.dp) k →
      ¬PortOf sw ndev k := by
    intro k hk hport
    obtain ⟨port, hdp, hne⟩ := hother k hk
    obtain ⟨port', hdp', heq⟩ := hport.slave
    rw [hdp, Option.some_inj] at hdp'
    exact hne (hdp' ▸ heq)
  -- the three ends of the loop, read back from the list to the ports of the switch
  obtain ⟨heq, p, hp, hfirst⟩ | ⟨heq, hall⟩ | ⟨p, port, heq, hp, hslave, hfirst⟩ :=
    findPort_list ndev ((List.range sw.family.cpuPort).map sw.dp)
  · obtain ⟨hlt, hnone⟩ := hget p none hp
    exact Or.inl ⟨heq, p, hlt, hnone, fun k hk => hnot k (hfirst k hk)⟩
  · rw [List.length_map, List.length_range] at hall
    refine Or.inr (Or.inl ⟨heq, ?_, ?_⟩)
    · intro p hp hnone
      obtain ⟨port, hdp, -⟩ := hother p (hall p hp)
      rw [hnone] at hdp
      cases hdp
    · exact fun p hport => hnot p (hall p hport.lt) hport
  · obtain ⟨hlt, hdp⟩ := hget p (some port) hp
    have hindex : port.index = p := sw.index_eq p port hdp
    refine Or.inr (Or.inr ⟨port, heq, ?_, fun k hk hnone => ?_⟩)
    · rw [hindex]
      exact ⟨hlt, ⟨port, hdp, hslave⟩, fun k hk => hother k (hfirst k hk)⟩
    · obtain ⟨q, hq, -⟩ := hother k (hfirst k (hindex ▸ hk))
      rw [hnone] at hq
      cases hq

/-! ### The whole notification -/

/-- A link of the port with the index `p`. -/
private theorem handleChangeupper_link {port : DsaPort δ} {i : Nat}
    (hm : sw.isLagMaster info.upper = true)
    (hport : findPort info.ndev ((List.range sw.family.cpuPort).map sw.dp) = some (some port))
    (hi : findSlot sw.family s info.upper = i) (hl : info.linking = true) :
    handleChangeupper sw s info =
      match lagAdd sw.family (s.claimed i info.upper) i port.index with
      | .error _ => some
        { err := some .einval, accessed := List.range (min (i + 1) sw.family.nLags) ++ [i]
          priv := s.claimed i info.upper }
      | .ok s => some
        { err := none, accessed := List.range (min (i + 1) sw.family.nLags) ++ [i], priv := s } := by
  subst hi
  unfold handleChangeupper Priv.claimed
  simp only [hm, Bool.not_true, hport, hl, if_true]
  rfl

/-- An unlink of the port with the index `p`. -/
private theorem handleChangeupper_unlink {port : DsaPort δ} {i : Nat}
    (hm : sw.isLagMaster info.upper = true)
    (hport : findPort info.ndev ((List.range sw.family.cpuPort).map sw.dp) = some (some port))
    (hi : findSlot sw.family s info.upper = i) (hl : info.linking = false) :
    handleChangeupper sw s info =
      match lagDel sw.family s i port.index with
      | .error _ => some
        { err := some .einval, accessed := List.range (min (i + 1) sw.family.nLags) ++ [i]
          priv := s }
      | .ok s => some
        { err := none, accessed := List.range (min (i + 1) sw.family.nLags) ++ [i]
          priv := if s.lagsPortMembers i = 0#64 then
              { s with lagDevs := Function.update s.lagDevs i none }
            else s } := by
  subst hi
  unfold handleChangeupper
  simp only [hm, Bool.not_true, hport, hl]
  rfl

/-- What holds of the outcome of a notification that has one. -/
private theorem exists_outcome_iff {out : Outcome δ} {P : Outcome δ → Prop}
    (hout : handleChangeupper sw s info = some out) :
    (∃ out', handleChangeupper sw s info = some out' ∧ P out') ↔ P out := by
  rw [hout]
  constructor
  · rintro ⟨out', hout', hP⟩
    rwa [Option.some.inj hout']
  · exact fun hP => ⟨out, rfl, hP⟩

/-- A port of the switch with a slot: what the request has to keep. -/
private theorem good_iff_of_slot {port : DsaPort δ} (h : LagsOk sw.family s)
    (hm : sw.isLagMaster info.upper = true)
    (hfind : findPort info.ndev ((List.range sw.family.cpuPort).map sw.dp) = some (some port))
    (hport : PortOf sw info.ndev port.index)
    (hslot : Slot sw.family s info.upper (findSlot sw.family s info.upper)) :
    (∃ out, handleChangeupper sw s info = some out ∧ Good sw s out) ↔
      if info.linking then
        LinkHarmless sw.family s (findSlot sw.family s info.upper) port.index info.upper
      else s.Member (findSlot sw.family s info.upper) port.index →
        ¬Overlap sw.family (findSlot sw.family s info.upper) port.index := by
  cases hl : info.linking with
  -- linking is harmless or not by the slot it takes
  | true =>
    rw [if_pos rfl]
    have heq := handleChangeupper_link (s := s) hm hfind rfl hl
    obtain ⟨out, hout⟩ : ∃ out, handleChangeupper sw s info = some out := by
      rw [heq]
      split <;> exact ⟨_, rfl⟩
    rw [exists_outcome_iff hout]
    exact link_good_iff h hslot hport.lt (heq.symm.trans hout)
  -- unlinking clears the port's bit, which may be shared with another group
  | false =>
    rw [if_neg Bool.false_ne_true]
    have heq := handleChangeupper_unlink (s := s) hm hfind rfl hl
    obtain ⟨out, hout⟩ : ∃ out, handleChangeupper sw s info = some out := by
      rw [heq]
      split <;> exact ⟨_, rfl⟩
    rw [exists_outcome_iff hout]
    exact unlink_good_iff h hslot hport.lt (heq.symm.trans hout)

/-- Without a slot the index behind the table is accessed. -/
private theorem not_good_of_no_slot {port : DsaPort δ} {out : Outcome δ}
    (hm : sw.isLagMaster info.upper = true)
    (hfind : findPort info.ndev ((List.range sw.family.cpuPort).map sw.dp) = some (some port))
    (hfull : findSlot sw.family s info.upper = sw.family.nLags)
    (hout : handleChangeupper sw s info = some out) : ¬Good sw s out := by
  intro hgood
  -- without a slot the index is the number of groups, one past the array
  have hmem : sw.family.nLags ∈ out.accessed := by
    cases hl : info.linking with
    | true =>
      rw [handleChangeupper_link hm hfind hfull hl, lagAdd_of_le (Nat.le_refl _)] at hout
      obtain rfl := Option.some.inj hout
      simp
    | false =>
      rw [handleChangeupper_unlink hm hfind hfull hl, lagDel_of_le (Nat.le_refl _)] at hout
      obtain rfl := Option.some.inj hout
      simp
  exact Nat.lt_irrefl _ (hgood.accessed _ hmem)

omit [DecidableEq δ] in
/-- For a port of the switch only the slot decides. -/
private theorem harmless_iff_of_port {port : DsaPort δ} (hport : PortOf sw info.ndev port.index)
    (hdp : ∀ p < port.index, sw.dp p ≠ none) :
    Harmless sw s info ↔ ∃ i, Slot sw.family s info.upper i ∧
      if info.linking then LinkHarmless sw.family s i port.index info.upper
      else s.Member i port.index → ¬Overlap sw.family i port.index := by
  constructor
  · exact fun hx => hx.slot port.index hport
  · intro hx
    constructor
    · -- a port without `dp` is behind the one that the search found
      intro p _ hnone
      refine ⟨port.index, ?_, hport⟩
      by_contra hge
      obtain hlt | heq := Nat.lt_or_eq_of_le (Nat.le_of_not_lt hge)
      · exact hdp p hlt hnone
      · obtain ⟨q, hq, -⟩ := hport.slave
        rw [← heq, hnone] at hq
        cases hq
    · intro p hp
      rwa [hp.unique hport]

/-- A notification does what it has to exactly if it is harmless or not for a LAG master. -/
theorem good_iff (h : LagsOk sw.family s) (info : Changeupper δ) :
    (∃ out, handleChangeupper sw s info = some out ∧ Good sw s out) ↔
      (sw.isLagMaster info.upper = true → Harmless sw s info) := by
  by_cases hm : sw.isLagMaster info.upper = true
  · rw [forall_prop_of_true hm]
    obtain ⟨hfind, p, hp, hnone, hno⟩ | ⟨hfind, hdp, hno⟩ | ⟨port, hfind, hport, hdp⟩ :=
      findPort_cases sw info.ndev
    · -- the search runs into a port without `dp`
      have hnull : handleChangeupper sw s info = none := by
        unfold handleChangeupper
        simp [hm, hfind]
      constructor
      · rintro ⟨out, hout, -⟩
        rw [hnull] at hout
        cases hout
      · intro hharm
        obtain ⟨k, hk, hkport⟩ := hharm.dp p hp hnone
        exact absurd hkport (hno k hk)
    · -- not a port of the switch
      have hsome : handleChangeupper sw s info = some
          { err := some .einval
            accessed := List.range (min (findSlot sw.family s info.upper + 1) sw.family.nLags)
            priv := s } := by
        unfold handleChangeupper
        simp [hm, hfind]
      rw [exists_outcome_iff hsome]
      constructor
      · intro _
        exact ⟨fun p hp hnone => absurd hnone (hdp p hp), fun p hport => absurd hport (hno p)⟩
      · intro _
        refine ⟨h, fun k hk => ?_, fun _ => rfl⟩
        have hk' := List.mem_range.mp hk
        omega
    -- a port of the switch: the slot decides
    · rw [harmless_iff_of_port hport hdp]
      obtain hslot | ⟨hfull, hnoslot⟩ := findSlot_cases sw.family s info.upper
      · rw [good_iff_of_slot h hm hfind hport hslot]
        constructor
        · exact fun hx => ⟨_, hslot, hx⟩
        · rintro ⟨i, hi, hx⟩
          rwa [hi.unique hslot] at hx
      · constructor
        · rintro ⟨out, hout, hgood⟩
          exact absurd hgood (not_good_of_no_slot hm hfind hfull hout)
        · rintro ⟨i, hi, -⟩
          exact absurd hi (hnoslot i)
  · -- nothing to do with link aggregation
    have hskip : handleChangeupper sw s info = some { err := none, accessed := [], priv := s } := by
      unfold handleChangeupper
      simp [hm]
    constructor
    · exact fun _ hx => absurd hx hm
    · exact fun _ => ⟨_, hskip, h, fun k hk => absurd hk List.not_mem_nil, fun _ => rfl⟩

/-! ### Runs -/

/-- Every notification of a run does what it has to exactly if all of them are harmless. -/
theorem run_lagsOk_iff (sw : Switch δ) (s : Priv δ) (infos : List (Changeupper δ))
    (hs : LagsOk sw.family s) :
    Along (step sw) (fun s info _ =>
      ∃ out, handleChangeupper sw s info = some out ∧ Good sw s out) s infos ↔
    Along (step sw) (fun s info _ =>
      sw.isLagMaster info.upper = true → Harmless sw s info) s infos := by
  -- a harmless change keeps the groups right
  have hkeep : ∀ s info, LagsOk sw.family s → True →
      (sw.isLagMaster info.upper = true → Harmless sw s info) →
      LagsOk sw.family (step sw s info) ∧
        ∃ out, handleChangeupper sw s info = some out ∧ Good sw s out := by
    intro s info hinv _ hharm
    obtain ⟨out, hout, hgood⟩ := (good_iff hinv info).mpr hharm
    refine ⟨?_, out, hout, hgood⟩
    unfold step
    rw [hout]
    exact hgood.ok
  have hbreak : ∀ s info, LagsOk sw.family s → True →
      (∃ out, handleChangeupper sw s info = some out ∧ Good sw s out) →
      sw.isLagMaster info.upper = true → Harmless sw s info :=
    fun s info hinv _ hgood => (good_iff hinv info).mp hgood
  exact Along.iff_of_invariant hkeep hbreak hs (Along.of_forall fun _ _ => trivial)

/-- An RTL8380 with 28 ports, whose devices have the numbers of the ports; from 100 on there are
    LAG masters. -/
def sampleSwitch : Switch Nat where
  family := .rtl8380
  dp j := some { slave := some j, index := j }
  index_eq j port h := by
    obtain rfl := Option.some.inj h
    rfl
  isLagMaster d := decide (100 ≤ d)

/-- No groups yet. -/
def samplePriv : Priv Nat where
  lagDevs _ := none
  lagsPortMembers _ := 0#64
  regs _ := 0#32

/-- No port of the examples is in a group. -/
private theorem samplePriv_not_member (k p : Nat) : ¬samplePriv.Member k p := by
  unfold Priv.Member samplePriv
  simp

/-- The groups of the examples are right. -/
theorem samplePriv_lagsOk : LagsOk sampleSwitch.family samplePriv where
  disjoint i _ _ _ p hi _ := absurd hi (samplePriv_not_member i p)
  distinct _ _ _ _ _ h _ := by cases h
  master _ _ := ⟨fun _ => rfl, fun _ => rfl⟩
  reg i _ := by
    apply BitVec.eq_of_getLsbD_eq
    intro b _
    simp [memberReg, Family.getPortRegBe, sampleSwitch, samplePriv, getPortReg]

/-- The first slot of the examples is free. -/
theorem samplePriv_slot (upper : Nat) : Slot sampleSwitch.family samplePriv upper 0 where
  lt := by decide
  fits := Or.inl rfl
  first k hk := absurd hk (Nat.not_lt_zero k)

/-- The registers of the RTL8380 do not overlap. -/
private theorem sampleSwitch_not_overlap (g p : Nat) : ¬Overlap sampleSwitch.family g p := by
  intro hover
  cases hover.1

/-- A device below 28 is that of the port with its number. -/
private theorem sampleSwitch_portOf {p : Nat} (hp : p < sampleSwitch.family.cpuPort) :
    PortOf sampleSwitch p p where
  lt := hp
  slave := ⟨_, rfl, rfl⟩
  first _ hk := ⟨_, rfl, fun h => hk.ne (Option.some.inj h)⟩

/-- A link is harmless in a state of the RTL8380 that has a slot for the master, blocks nothing
    and has the port in no other group. -/
private theorem sampleSwitch_link_harmless {s : Priv Nat} {p upper i : Nat}
    (hp : p < sampleSwitch.family.cpuPort) (hslot : Slot sampleSwitch.family s upper i)
    (hblocked : ¬s.Blocked sampleSwitch.family)
    (hothers : ∀ k < sampleSwitch.family.nLags, k ≠ i → ¬s.Member k p)
    (hmasters : s.lagDevs i = none →
      ∀ k < sampleSwitch.family.nLags, s.lagDevs k ≠ some upper) :
    Harmless sampleSwitch s ⟨p, upper, true⟩ where
  dp _ _ hnone := absurd hnone (Option.some_ne_none _)
  slot q hq := by
    obtain rfl := hq.unique (sampleSwitch_portOf hp)
    exact ⟨i, hslot, Or.inr ⟨hblocked, Or.inr (sampleSwitch_not_overlap i q), hothers, hmasters⟩⟩

/-- `samplePriv` with port 10 in the LAG 100. -/
private def sampleOne : Priv Nat := samplePriv.linked .rtl8380 0 10 100

/-- `samplePriv` with ports 10 and 20 in the LAGs 100 and 101. -/
private def sampleTwo : Priv Nat := sampleOne.linked .rtl8380 1 20 101

/-- `samplePriv` with port 11 in the LAG 100 too. -/
private def sampleThree : Priv Nat := sampleTwo.added .rtl8380 0 11

/-- The first port is linked to the first master. -/
private theorem step_samplePriv : step sampleSwitch samplePriv ⟨10, 100, true⟩ = sampleOne := rfl

/-- The second port is linked to the second master. -/
private theorem step_sampleOne : step sampleSwitch sampleOne ⟨20, 101, true⟩ = sampleTwo := rfl

/-- Another port is linked to the first master. -/
private theorem step_sampleTwo : step sampleSwitch sampleTwo ⟨11, 100, true⟩ = sampleThree := rfl

/-- Two LAGs: ports 10 and 11 join the one and port 20 the other, port 3 joins a bridge, and port
    20 leaves again. -/
theorem run_lagsOk_two : Along (step sampleSwitch) (fun s info _ =>
      ∃ out, handleChangeupper sampleSwitch s info = some out ∧ Good sampleSwitch s out)
    samplePriv [⟨10, 100, true⟩, ⟨20, 101, true⟩, ⟨11, 100, true⟩, ⟨3, 7, true⟩,
      ⟨20, 101, false⟩] := by
  refine (run_lagsOk_iff sampleSwitch samplePriv _ samplePriv_lagsOk).mpr ⟨fun _ => ?_, ?_⟩
  · exact sampleSwitch_link_harmless (by decide) (samplePriv_slot 100)
      (by decide) (by decide) (by decide)
  rw [step_samplePriv]
  refine ⟨fun _ => ?_, ?_⟩
  · exact sampleSwitch_link_harmless (i := 1) (by decide) ⟨by decide, Or.inl rfl, by decide⟩
      (by decide) (by decide) (by decide)
  rw [step_sampleOne]
  refine ⟨fun _ => ?_, ?_⟩
  · exact sampleSwitch_link_harmless (i := 0) (by decide) ⟨by decide, Or.inr rfl, by decide⟩
      (by decide) (by decide) (by decide)
  rw [step_sampleTwo]
  -- the bridge is no LAG master
  refine ⟨fun hmaster => absurd hmaster (by decide), fun _ => ?_, trivial⟩
  refine ⟨fun _ _ hnone => absurd hnone (Option.some_ne_none _), fun p _ => ?_⟩
  exact ⟨1, ⟨by decide, Or.inr rfl, by decide⟩, fun _ => sampleSwitch_not_overlap 1 p⟩


/-- After port 0 joined a LAG, port 1 cannot join another: it is rejected, but has taken a slot. -/
theorem run_second_lag_not_ok : LagsOk sampleSwitch.family samplePriv ∧
    ¬Along (step sampleSwitch) (fun s info _ =>
        ∃ out, handleChangeupper sampleSwitch s info = some out ∧ Good sampleSwitch s out)
      samplePriv [⟨0, 100, true⟩, ⟨1, 101, true⟩] := by
  refine ⟨samplePriv_lagsOk, ?_⟩
  rintro ⟨-, ⟨out, hout, hgood⟩, -⟩
  have herr : (handleChangeupper sampleSwitch (step sampleSwitch samplePriv ⟨0, 100, true⟩)
      ⟨1, 101, true⟩).map (fun o => o.err.isSome) = some true := by decide
  have hdev : (handleChangeupper sampleSwitch (step sampleSwitch samplePriv ⟨0, 100, true⟩)
      ⟨1, 101, true⟩).map (fun o => o.priv.lagDevs 1) = some (some 101) := by decide
  have hold : (step sampleSwitch samplePriv ⟨0, 100, true⟩).lagDevs 1 = none := by decide
  rw [hout, Option.map_some, Option.some_inj] at herr hdev
  have hsame := hgood.rejected (Option.isSome_iff_ne_none.mp herr)
  rw [hsame, hold] at hdev
  cases hdev

end HandsomeMod.Native.Rtl83xx.Lag
