import HandsomeMod.Native.Iwcap

/-!
# The sizes that the options give

A `-r` is checked against the `pktcap` of that moment and a `-c` against a constant, so `pktcap` can
exceed `ringsz` in the end: the ring has no slot then. Else a division by zero is out of the question,
and what remains is that the size of the memory can wrap.
-/

namespace HandsomeMod.Native.Iwcap

open ForStd

variable {e : Endian} {w : Nat} {r : Ringbuf}

/-! ### The option loop -/

/-- `ringsz` after an option. -/
def nextR (ringsz : UInt32) : Opt → UInt32
  | .r v => v
  | .c _ => ringsz

/-- `pktcap` after an option. -/
def nextC (pktcap : UInt16) : Opt → UInt16
  | .r _ => pktcap
  | .c v => v.toUInt16

/-- The value of the last `-r`, or the default. -/
def lastR (opts : List Opt) : UInt32 := opts.foldl nextR (1024 * 1024)

/-- The value of the last `-c`, as a `uint16_t`, or the default. -/
def lastC (opts : List Opt) : UInt16 := opts.foldl nextC 256

/-- A turn that goes on takes the value of its option. -/
private theorem optTurn_eq {s s' : Sizes} {o : Opt} (h : optTurn s o = some s') :
    s' = { ringsz := nextR s.ringsz o, pktcap := nextC s.pktcap o } ∧
    (minPktcap < s.pktcap.toNat → minPktcap < s'.pktcap.toNat) := by
  cases o with
  | r v =>
    rw [optTurn] at h
    split at h
    · cases h
    · cases h
      exact ⟨rfl, id⟩
  | c v =>
    rw [optTurn] at h
    split at h
    · cases h
    -- a capture length is only taken above the minimum
    · next hmin =>
      cases h
      exact ⟨rfl, fun _ => Nat.lt_of_not_le hmin⟩

/-- Options that are accepted leave the last argument of each. -/
private theorem foldlM_optTurn_eq {opts : List Opt} {s₀ s : Sizes}
    (h : opts.foldlM optTurn s₀ = some s)
    (hmin : minPktcap < s₀.pktcap.toNat) :
    s = { ringsz := opts.foldl nextR s₀.ringsz, pktcap := opts.foldl nextC s₀.pktcap } ∧
      minPktcap < s.pktcap.toNat := by
  induction opts generalizing s₀ with
  | nil =>
    cases h
    exact ⟨rfl, hmin⟩
  | cons o opts ih =>
    rw [List.foldlM_cons] at h
    obtain ⟨s₁, hturn, hrest⟩ := Option.bind_eq_some_iff.mp h
    obtain ⟨rfl, hkeep⟩ := optTurn_eq hturn
    exact ih hrest (hkeep hmin)

/-- Accepted options give the last values, and a `pktcap` of more than `minPktcap`. -/
theorem options_eq {opts : List Opt} {s : Sizes} (h : options opts = some s) :
    s = { ringsz := lastR opts, pktcap := lastC opts } ∧ minPktcap < s.pktcap.toNat :=
  foldlM_optTurn_eq h (by decide)

/-- The number of slots is a quotient. -/
theorem toNat_numItem (s : Sizes) : s.numItem.toNat = s.ringsz.toNat / s.pktcap.toNat := by
  have hle := Nat.div_le_self s.ringsz.toNat s.pktcap.toNat
  have hlt := s.ringsz.toNat_lt
  have hsmall : s.ringsz.toNat / s.pktcap.toNat < 2 ^ 32 := by omega
  exact UInt32.toNat_ofNat_of_lt' hsmall

/-! ### Divisions -/

/-- A store keeps the number of slots, or is out of bounds. -/
private theorem store_ensures (r : Ringbuf) (p : Nat) (l : List UInt8) :
    Ensures (· = Fault.outOfBounds) (fun r' => r'.len = r.len) (r.store p l) := by
  rw [Ringbuf.store]
  split
  · exact rfl
  · exact rfl

/-- A stored frame leaves the number of slots, and fails at a wrong position at most. -/
private theorem capture_ensures {n : UInt32} (pktcap : UInt16) (f : Frame) (hn : n ≠ 0)
    (h : r.len = n) :
    Ensures (· = Fault.outOfBounds) (fun r' => r'.len = n) (r.capture e pktcap f) := by
  have hstore : ∀ (r : Ringbuf) (p : Nat) (l : List UInt8), r.len = n →
      Ensures (· = Fault.outOfBounds) (fun r' => r'.len = n) (r.store p l) :=
    fun r p l h => (store_ensures r p l).mono fun _ h' => h'.trans h
  have hadd : Ensures (· = Fault.outOfBounds) (fun x => x.2.len = n) (r.add e f.sec f.usec) := by
    rw [Ringbuf.add, if_neg (by rwa [h])]
    refine (hstore { r with fill := (r.fill + 1) % r.len } _ _ h).bind fun _ h =>
      (hstore _ _ _ h).bind fun _ h => (hstore _ _ _ h).bind fun _ h => ?_
    exact h
  exact hadd.bind fun _ h => (hstore _ _ _ h).bind fun _ h => (hstore _ _ _ h).bind fun _ h =>
    hstore _ _ _ h

/-- So does the capture loop. -/
theorem run_ensures {n : UInt32} (pktcap : UInt16) (filterData filterBeacon : Bool)
    (frames : List Frame) (hn : n ≠ 0) (h : r.len = n) :
    Ensures (· = Fault.outOfBounds) (fun r' => r'.len = n)
      (r.run e pktcap filterData filterBeacon frames) := by
  induction frames generalizing r with
  | nil => exact h
  | cons f frames ih =>
    rw [Ringbuf.run]
    split
    · exact (capture_ensures pktcap f hn h).bind fun _ h => ih h
    · exact ih h

/-- A slot is read, or is out of bounds. -/
private theorem get_ensures (r : Ringbuf) (i : Nat) (h : r.len ≠ 0) :
    Ensures (· = Fault.outOfBounds) (fun _ => True) (r.get e i) := by
  simp only [Ringbuf.get, if_neg h, Ringbuf.fetch]
  split
  · exact trivial
  · exact rfl

/-- What can only be out of bounds does not divide by zero. -/
theorem Ensures.ne_divByZero {α : Type} {P : α → Prop} {x : Except Fault α}
    (h : Ensures (· = Fault.outOfBounds) P x) : x ≠ .error .divByZero := by
  rintro rfl
  cases h

/-! ### The ring of accepted options -/

/-- What the ring of `main` is like. -/
structure Sound (e : Endian) (w : Nat) (s : Sizes) : Prop where
  slots : 1 ≤ s.numItem.toNat
  size : s.numItem.toNat * (s.pktcap.toNat + entrySize) < 2 ^ w
  fits : ∀ f : Frame, entrySize + (f.pktbuf.take (f.len s.pktcap)).length ≤
    (UInt32.ofNat (s.pktcap.toNat + entrySize)).toNat
  noDiv : ∀ mem r, ringbufInit w mem s.numItem s.pktcap = .ok (some r) →
    ∀ filterData filterBeacon frames,
      r.run e s.pktcap filterData filterBeacon frames ≠ .error .divByZero ∧
      ∀ r', r.run e s.pktcap filterData filterBeacon frames = .ok r' →
        ∀ i, r'.get e i ≠ .error .divByZero

/-- The ring has the slots that were asked for. -/
private theorem len_of_ringbufInit {mem : Option Mem} {num : UInt32} {lenItem : UInt16}
    (h : ringbufInit w mem num lenItem = .ok (some r)) : r.len = num := by
  unfold ringbufInit at h
  split at h
  · cases h
  · cases mem with
    | none => cases h
    | some buf =>
      simp only at h
      obtain ⟨r', hstore, h⟩ := bind_ok h
      cases h
      have hlen := store_ensures
        { len := num
          fill := 0
          slen := UInt32.ofNat (lenItem.toNat + entrySize)
          size := num.toNat * (lenItem.toNat + entrySize) % 2 ^ w
          buf := buf } 0 (List.replicate (num.toNat * lenItem.toNat % 2 ^ 32) 0)
      rw [hstore] at hlen
      exact hlen

/-- A frame fits a slot. -/
private theorem fits_slot (pktcap : UInt16) (f : Frame) :
    entrySize + (f.pktbuf.take (f.len pktcap)).length ≤
      (UInt32.ofNat (pktcap.toNat + entrySize)).toNat := by
  have hcap := pktcap.toNat_lt
  have hlen : f.len pktcap ≤ pktcap.toNat := by
    rw [Frame.len]
    split <;> omega
  have hsmall : pktcap.toNat + entrySize < 2 ^ 32 := by
    rw [entrySize]
    omega
  rw [UInt32.toNat_ofNat_of_lt' hsmall, List.length_take, Nat.add_comm]
  omega

/-- A ring with a slot never divides by zero. -/
theorem sound_of_slots {s : Sizes} (hslots : 1 ≤ s.numItem.toNat)
    (hsize : s.numItem.toNat * (s.pktcap.toNat + entrySize) < 2 ^ w) : Sound e w s where
  slots := hslots
  size := hsize
  fits := fits_slot s.pktcap
  noDiv := by
    intro mem r hinit filterData filterBeacon frames
    have hne : s.numItem ≠ 0 := by
      intro hzero
      rw [hzero] at hslots
      exact absurd hslots (by decide)
    have hrun := run_ensures (e := e) s.pktcap filterData filterBeacon frames hne
      (len_of_ringbufInit hinit)
    refine ⟨Ensures.ne_divByZero hrun, ?_⟩
    intro r' hr' i
    rw [hr'] at hrun
    exact Ensures.ne_divByZero (get_ensures r' i (by rwa [show r'.len = s.numItem from hrun]))

/-- There is a slot exactly if the ring is as large as a packet. -/
theorem slots_iff {s : Sizes} (hmin : minPktcap < s.pktcap.toNat) :
    1 ≤ s.numItem.toNat ↔ s.pktcap.toNat ≤ s.ringsz.toNat := by
  rw [toNat_numItem, Nat.one_le_div_iff (Nat.zero_lt_of_lt hmin)]

/-- The ring of accepted options is sound if and only if the last `-c` is not more than the last `-r`
and the size of the memory does not wrap. -/
theorem sound_iff {opts : List Opt} {s : Sizes} (h : options opts = some s) :
    Sound e w s ↔ (lastC opts).toNat ≤ (lastR opts).toNat ∧
      (lastR opts).toNat / (lastC opts).toNat * ((lastC opts).toNat + entrySize) < 2 ^ w := by
  obtain ⟨rfl, hmin⟩ := options_eq h
  constructor
  · intro hsound
    have hsize := hsound.size
    rw [toNat_numItem] at hsize
    exact ⟨(slots_iff hmin).mp hsound.slots, hsize⟩
  · rintro ⟨hle, hsize⟩
    rw [← toNat_numItem { ringsz := lastR opts, pktcap := lastC opts }] at hsize
    exact sound_of_slots ((slots_iff hmin).mpr hle) hsize

/-- `iwcap -c 1000 -r 4096` makes a ring of four slots. -/
theorem sound_iff_fourSlots : ∃ s, options [.c 1000, .r 4096] = some s ∧ Sound .little 32 s :=
  have hoptions : options [.c 1000, .r 4096] = some { ringsz := 4096, pktcap := 1000 } := rfl
  ⟨_, hoptions, (sound_iff hoptions).mpr ⟨by decide, by decide⟩⟩

/-- The `-r` was checked against the default of `-c`. -/
theorem not_sound_order : ∃ s, options [.r 768, .c 1000] = some s ∧ ¬ Sound .little 32 s :=
  ⟨{ ringsz := 768, pktcap := 1000 }, rfl, fun hsound => absurd hsound.slots (by decide)⟩

/-- Enough memory for 32 bits is asked for. -/
theorem not_sound_large : ∃ s, options [.r 0xFFFFFFFF] = some s ∧ ¬ Sound .little 32 s :=
  ⟨{ ringsz := 0xFFFFFFFF, pktcap := 256 }, rfl, fun hsound => absurd hsound.size (by decide)⟩

end HandsomeMod.Native.Iwcap
