import HandsomeMod.Native.TffsNand

/-!
# Looking up an entry of TFFS 3

The entries of a device with well-formed sectors give every revision a value or delete it. The lookup
finds the highest revision, as long as the array of segments never has to grow.
-/

namespace HandsomeMod.Native.TffsNand

open ForStd

variable {c : Cfg} {id : Nat} {val : Nat → Option (List (List UInt8))}

/-! ### What is stored -/

/-- The good sectors with the id, in the order of the device. -/
def entries (c : Cfg) (id : Nat) (sectors : List Sector) : List Entry :=
  (sectors.filter fun sec => sec.good && sec.readId c ≠ tffsIdEnd && sec.readId c = id).map
    (Sector.entry c)

/-- An entry of a revision whose value consists of the segments `segs`. -/
structure Entry.IsSegment (e : Entry) (segs : List (List UInt8)) : Prop where
  seg_lt : e.seg < segs.length
  data_eq : e.data = segs.getD e.seg []
  nextSeg_eq : e.nextSeg = if e.seg + 1 = segs.length then 0 else e.seg + 1

/-- `val` gives the segments of a revision, or `none` if the revision is a deletion. -/
def Entry.Ok (val : Nat → Option (List (List UInt8))) (e : Entry) : Prop :=
  match val e.rev with
  | none => e.seg = tffsSegmentCleared
  | some segs => e.IsSegment segs

/-- The sectors were written by TFFS, in blocks that begin with a header. -/
structure WellFormed (c : Cfg) (id : Nat) (val : Nat → Option (List (List UInt8)))
    (sectors : List Sector) : Prop where
  /-- `scan_mtd` marks the first sector of a block as bad. -/
  header : ∀ k sec, sectors[k]? = some sec → k * tffsSectorSize % c.blocksize = 0 →
    sec.good = false
  oob : c.readOobSectorHealth = true → ∀ sec ∈ sectors, sec.good = true → sec.oobOk c = true
  /-- Behind the entries of a block there are none. -/
  blockEnd : ∀ j k secj seck, sectors[j]? = some secj → sectors[k]? = some seck → j < k →
    secj.good = true → secj.readId c = tffsIdEnd → seck.good = true → seck.readId c ≠ tffsIdEnd →
    ∃ m, j < m ∧ m ≤ k ∧ m * tffsSectorSize % c.blocksize = 0
  len_le : ∀ sec ∈ sectors, sec.good = true → sec.readId c ≠ tffsIdEnd →
    sec.readLen c ≤ tffsMaximumSegmentSize
  entry : ∀ e ∈ entries c id sectors, e.Ok val
  numSegs_lt : ∀ r segs, val r = some segs → segs.length < 2 ^ 32
  /-- The size of the device is a 32-bit number. -/
  size_lt : sectors.length * tffsSectorSize < 2 ^ 32

/-- Segment `i` of the revision is among the entries. -/
def Present (pre : List Entry) (r i : Nat) : Prop := ∃ e ∈ pre, e.rev = r ∧ e.seg = i

instance (pre : List Entry) (r i : Nat) : Decidable (Present pre r i) :=
  inferInstanceAs (Decidable (∃ e ∈ pre, e.rev = r ∧ e.seg = i))

/-- The value of the highest revision, if it has one and all of it is there. -/
def lookup (val : Nat → Option (List (List UInt8))) (es : List Entry) : Option (List UInt8) :=
  match (es.map Entry.rev).max? with
  | none => none
  | some r =>
    match val r with
    | none => none
    | some segs =>
      if ∀ i < segs.length, Present es r i then some segs.flatten else none

/-- The entry `e` behind `pre` is of the highest revision so far, and needs more slots than the first
    entry of that revision. -/
def Outgrows (pre : List Entry) (e : Entry) : Prop :=
  (∀ f ∈ pre, f.rev ≤ e.rev) ∧ e.seg ≠ tffsSegmentCleared ∧
    ∃ f, pre.find? (fun f => f.rev = e.rev) = some f ∧ f.newNumSegs < e.newNumSegs

/-- No entry needs more slots than the first one of its revision. -/
def FirstFits (es : List Entry) : Prop :=
  ∀ pre e post, es = pre ++ e :: post → ¬Outgrows pre e

/-! ### The loop over the sectors -/

/-- The loop takes the entries one after the other. -/
private theorem findEntryLoop_eq {sectors : List Sector} {n : Nat} {blockEnd : Bool} {s : Search}
    (hheader : ∀ k sec, sectors[k]? = some sec → (n + k) * tffsSectorSize % c.blocksize = 0 →
      sec.good = false)
    (hoob : c.readOobSectorHealth = true → ∀ sec ∈ sectors, sec.good = true → sec.oobOk c = true)
    (hend : ∀ j k secj seck, sectors[j]? = some secj → sectors[k]? = some seck → j < k →
      secj.good = true → secj.readId c = tffsIdEnd → seck.good = true →
      seck.readId c ≠ tffsIdEnd → ∃ m, j < m ∧ m ≤ k ∧ (n + m) * tffsSectorSize % c.blocksize = 0)
    (hlen : ∀ sec ∈ sectors, sec.good = true → sec.readId c ≠ tffsIdEnd →
      sec.readLen c ≤ tffsMaximumSegmentSize)
    (hblock : blockEnd = true → ∀ k sec, sectors[k]? = some sec → sec.good = true →
      sec.readId c ≠ tffsIdEnd → ∃ m, m ≤ k ∧ (n + m) * tffsSectorSize % c.blocksize = 0) :
    findEntryLoop c id n blockEnd sectors s = (entries c id sectors).foldlM (takeEntry c) s := by
  -- induction on the sectors; `n` and the end mark move with it, so both are general
  induction sectors generalizing n blockEnd s with
  | nil => rfl
  | cons sec sectors ih =>
    -- the layout conditions hold of the sectors behind this one too, counted from `n + 1`
    have hrest : ∀ blockEnd' s', (blockEnd' = true → ∀ k sec', sectors[k]? = some sec' →
        sec'.good = true → sec'.readId c ≠ tffsIdEnd →
        ∃ m, m ≤ k ∧ (n + 1 + m) * tffsSectorSize % c.blocksize = 0) →
        findEntryLoop c id (n + 1) blockEnd' sectors s' =
          (entries c id sectors).foldlM (takeEntry c) s' := by
      intro blockEnd' s' hblock'
      apply ih
      · intro k sec' hk hmod
        apply hheader (k + 1) sec' hk
        rw [← Nat.add_assoc, Nat.add_right_comm]
        exact hmod
      · exact fun hhealth sec' hmem => hoob hhealth sec' (List.mem_cons_of_mem sec hmem)
      · intro j k secj seck hj hk hlt hgood hidj hgoodk hidk
        obtain ⟨m, hjm, hmk, hmod⟩ :=
          hend (j + 1) (k + 1) secj seck hj hk (by omega) hgood hidj hgoodk hidk
        refine ⟨m - 1, by omega, by omega, ?_⟩
        rw [show n + 1 + (m - 1) = n + m by omega]
        exact hmod
      · exact fun sec' hmem => hlen sec' (List.mem_cons_of_mem sec hmem)
      · exact hblock'
    have hskip : (sec.good && sec.readId c ≠ tffsIdEnd && sec.readId c = id) = false →
        entries c id (sec :: sectors) = entries c id sectors := by
      intro hfalse
      rw [entries, List.filter_cons_of_neg (by rw [hfalse]; exact Bool.false_ne_true), entries]
    rw [findEntryLoop]
    by_cases hb : blockEnd = true
    · -- behind the end of a block
      rw [if_pos hb]
      by_cases hgood : sec.good = true ∧ sec.readId c ≠ tffsIdEnd
      · obtain ⟨m, hm, hmod⟩ := hblock hb 0 sec rfl hgood.1 hgood.2
        obtain rfl := Nat.le_zero.mp hm
        have hbad := hheader 0 sec rfl hmod
        rw [hgood.1] at hbad
        cases hbad
      · rw [hskip (by
          rw [Bool.and_eq_false_iff]
          left
          apply Bool.eq_false_iff.mpr
          intro htrue
          rw [Bool.and_eq_true, decide_eq_true_eq] at htrue
          exact hgood htrue)]
        apply hrest
        intro hstay k sec' hk hgood' hid'
        obtain ⟨m, hm, hmod⟩ := hblock hb (k + 1) sec' hk hgood' hid'
        rw [decide_eq_true_eq] at hstay
        have hm0 : m ≠ 0 := by
          rintro rfl
          exact hstay hmod
        refine ⟨m - 1, by omega, ?_⟩
        rw [show n + 1 + (m - 1) = n + m by omega]
        exact hmod
    · rw [if_neg hb]
      by_cases hgood : sec.good = true
      · rw [if_neg (by rw [hgood]; exact Bool.false_ne_true)]
        have hmeta : (c.readOobSectorHealth && !sec.oobOk c) = false := by
          cases hhealth : c.readOobSectorHealth with
          | false => rfl
          | true =>
            rw [hoob hhealth sec List.mem_cons_self hgood]
            rfl
        rw [if_neg (by rw [hmeta]; exact Bool.false_ne_true)]
        by_cases hidEnd : sec.readId c = tffsIdEnd
        · rw [if_pos hidEnd, hskip (by simp [hidEnd])]
          -- this end mark starts the skipping; the block border that `hend` gives is at most one
          -- sector nearer
          apply hrest
          intro _ k sec' hk hgood' hid'
          obtain ⟨m, hm, hmk, hmod⟩ :=
            hend 0 (k + 1) sec sec' rfl hk (Nat.succ_pos k) hgood hidEnd hgood' hid'
          refine ⟨m - 1, by omega, ?_⟩
          rw [show n + 1 + (m - 1) = n + m by omega]
          exact hmod
        · rw [if_neg hidEnd, if_neg (Nat.not_lt.mpr (hlen sec List.mem_cons_self hgood hidEnd))]
          by_cases hid : sec.readId c = id
          · rw [if_pos hid]
            have hkeep : entries c id (sec :: sectors) = sec.entry c :: entries c id sectors := by
              rw [entries, List.filter_cons_of_pos, List.map_cons, entries]
              rw [hgood, decide_eq_true hidEnd, decide_eq_true hid]
              rfl
            rw [hkeep, List.foldlM_cons]
            congr 1
            funext s'
            exact hrest false s' fun hfalse => by cases hfalse
          · rw [if_neg hid, hskip (by simp [hid])]
            exact hrest false s fun hfalse => by cases hfalse
      · rw [if_pos (by rw [Bool.eq_false_iff.mpr hgood]; rfl), hskip (by simp [hgood])]
        exact hrest false s fun hfalse => by cases hfalse

/-- On a well formed flash the search takes the entries with the id. -/
theorem WellFormed.findEntryLoop_eq {sectors : List Sector} (h : WellFormed c id val sectors)
    (s : Search) :
    findEntryLoop c id 0 false sectors s = (entries c id sectors).foldlM (takeEntry c) s := by
  apply TffsNand.findEntryLoop_eq
  · intro k sec hk hmod
    rw [Nat.zero_add] at hmod
    exact h.header k sec hk hmod
  · exact h.oob
  · intro j k secj seck hj hk hlt hgood hidj hgoodk hidk
    obtain ⟨m, hjm, hmk, hmod⟩ := h.blockEnd j k secj seck hj hk hlt hgood hidj hgoodk hidk
    refine ⟨m, hjm, hmk, ?_⟩
    rw [Nat.zero_add]
    exact hmod
  · exact h.len_le
  · exact fun hfalse => absurd hfalse Bool.false_ne_true

/-! ### The array of segments -/

/-- What a slot holds after the entries `pre`. -/
def slotAt (val : Nat → Option (List (List UInt8))) (pre : List Entry) (r i : Nat) : Slot :=
  if Present pre r i then .val (((val r).getD []).getD i []) else .null

/-- The number of slots after the entries `pre`: what the first entry of the revision asked for. -/
def numSlots (pre : List Entry) (r : Nat) : Nat :=
  match pre.find? fun f => f.rev = r with
  | none => 0
  | some f => if f.seg = tffsSegmentCleared then 0 else f.newNumSegs

/-- The array of segments of a revision after the entries `pre`. -/
structure Slots (val : Nat → Option (List (List UInt8))) (pre : List Entry) (s : Search) : Prop where
  segments_eq : s.segments = (List.range (numSlots pre s.rev)).map (slotAt val pre s.rev)
  fits : ∀ e ∈ pre, e.rev = s.rev → e.seg ≠ tffsSegmentCleared →
    e.newNumSegs ≤ numSlots pre s.rev

/-- The search after the entries `pre`. -/
structure Inv (val : Nat → Option (List (List UInt8))) (pre : List Entry) (s : Search) : Prop
    extends Slots val pre s where
  rev_le : ∀ e ∈ pre, e.rev ≤ s.rev
  rev_mem : pre = [] ∧ s.rev = 0 ∨ ∃ e ∈ pre, e.rev = s.rev

/-- Entries whose values are not longer than the numbers of a header. -/
def Small (val : Nat → Option (List (List UInt8))) : Prop :=
  ∀ r segs, val r = some segs → segs.length < 2 ^ 32

/-- The array has the slots that were counted. -/
theorem Slots.length_eq {pre : List Entry} {s : Search} (h : Slots val pre s) :
    s.segments.length = numSlots pre s.rev := by
  rw [h.segments_eq, List.length_map, List.length_range]

/-- A segment asks for slots up to its own, and for the next one if it is not the last. -/
theorem Entry.IsSegment.newNumSegs_eq {e : Entry} {segs : List (List UInt8)} (he : e.IsSegment segs)
    (hlt : segs.length < 2 ^ 32) :
    e.newNumSegs = if e.seg + 1 = segs.length then e.seg + 1 else e.seg + 2 := by
  have hseg := he.seg_lt
  rw [Entry.newNumSegs, he.nextSeg_eq]
  by_cases hlast : e.seg + 1 = segs.length
  · rw [if_pos hlast, if_pos hlast, if_pos rfl, Nat.mod_eq_of_lt (by omega)]
  · rw [if_neg hlast, if_neg hlast, if_neg (Nat.succ_ne_zero _), Nat.mod_eq_of_lt (by omega)]

/-- A segment of a value has a number. -/
theorem Entry.IsSegment.not_cleared {e : Entry} {segs : List (List UInt8)} (he : e.IsSegment segs)
    (hlt : segs.length < 2 ^ 32) : e.seg ≠ tffsSegmentCleared := by
  have hseg := he.seg_lt
  rw [tffsSegmentCleared]
  omega

/-- A search in a list with one more entry. -/
private theorem find?_append_singleton {α : Type} (p : α → Bool) (l : List α) (a : α) :
    (l ++ [a]).find? p = (l.find? p).or (if p a then some a else none) := by
  rw [List.find?_append]
  congr 1
  cases h : p a <;> simp [h]

/-- An entry of another revision does not matter. -/
theorem Slots.append_of_ne {pre : List Entry} {s : Search} (h : Slots val pre s) {e : Entry}
    (hne : e.rev ≠ s.rev) : Slots val (pre ++ [e]) s := by
  -- an entry of another revision is not counted
  have hnum : numSlots (pre ++ [e]) s.rev = numSlots pre s.rev := by
    rw [numSlots, find?_append_singleton, if_neg (by simp [hne]), Option.or_none, numSlots]
  constructor
  · rw [hnum]
    refine h.segments_eq.trans (List.map_congr_left fun i _ => ?_)
    rw [slotAt, slotAt]
    congr 1
    simp [Present, hne]
  · intro f hf hrev hcleared
    rw [hnum]
    obtain hold | hnew := List.mem_append.mp hf
    · exact h.fits f hold hrev hcleared
    · rw [List.mem_singleton.mp hnew] at hrev
      exact absurd hrev hne

/-- A newer revision starts with no slots. -/
private theorem slots_nil {pre : List Entry} {r : Nat} (hpre : ∀ f ∈ pre, f.rev ≠ r) :
    Slots val pre { rev := r, segments := [] } := by
  have hnone : numSlots pre r = 0 := by
    rw [numSlots, List.find?_eq_none.mpr fun f hf => by simpa using hpre f hf]
  constructor
  · rw [hnone]
    rfl
  · exact fun f hf hrev => absurd hrev (hpre f hf)

/-- A deletion leaves no slots. -/
theorem Slots.append_cleared {pre : List Entry} {s : Search} (h : Slots val pre s) {e : Entry}
    (hcleared : e.seg = tffsSegmentCleared)
    (hpre : ∀ f ∈ pre, f.rev = s.rev → f.seg = tffsSegmentCleared) : Slots val (pre ++ [e]) s := by
  -- a deletion has no segments: a revision of deletions only has no slot
  have hzero : ∀ l : List Entry, (∀ f ∈ l, f.rev = s.rev → f.seg = tffsSegmentCleared) →
      numSlots l s.rev = 0 := by
    intro l hl
    rw [numSlots]
    cases hfind : l.find? fun f => f.rev = s.rev with
    | none => rfl
    | some f =>
      simp only
      rw [if_pos (hl f (List.mem_of_find?_eq_some hfind) (by simpa using List.find?_some hfind))]
  have hall : ∀ f ∈ pre ++ [e], f.rev = s.rev → f.seg = tffsSegmentCleared := by
    intro f hf hrev
    obtain hold | hnew := List.mem_append.mp hf
    · exact hpre f hold hrev
    · rw [List.mem_singleton.mp hnew]
      exact hcleared
  constructor
  · rw [h.segments_eq, hzero _ hpre, hzero _ hall]
    rfl
  · exact fun f hf hrev hne => absurd (hall f hf hrev) hne

/-- Storing a segment in an array that is large enough. -/
private theorem map_slotAt_set {pre : List Entry} {e : Entry} {n : Nat}
    (hdata : e.data = ((val e.rev).getD []).getD e.seg []) :
    ((List.range n).map (slotAt val pre e.rev)).set e.seg (.val e.data) =
      (List.range n).map (slotAt val (pre ++ [e]) e.rev) := by
  apply List.ext_getElem
  · rw [List.length_set, List.length_map, List.length_map]
  · intro i hi hi'
    rw [List.getElem_set]
    simp only [List.getElem_map, List.getElem_range]
    by_cases hseg : e.seg = i
    · rw [if_pos hseg, slotAt, if_pos ⟨e, List.mem_append_right _ (List.mem_singleton_self e), rfl,
        hseg⟩, hdata, hseg]
    · rw [if_neg hseg, slotAt, slotAt]
      congr 1
      simp [Present, hseg]

/-! ### One entry -/

/-- What the revision of an entry that is not obsolete has in its array. -/
private theorem Inv.newer {pre : List Entry} {s : Search} (h : Inv val pre s) {e : Entry}
    (hge : s.rev ≤ e.rev) :
    Slots val pre (if e.rev > s.rev then { rev := e.rev, segments := [] } else s) ∧
      (if e.rev > s.rev then { rev := e.rev, segments := [] } else s).rev = e.rev := by
  by_cases hgt : e.rev > s.rev
  · rw [if_pos hgt]
    refine ⟨slots_nil fun f hf heq => ?_, rfl⟩
    have hle := h.rev_le f hf
    omega
  · rw [if_neg hgt]
    exact ⟨h.toSlots, by omega⟩

/-- An entry of an obsolete revision leaves the search as it is. -/
private theorem Inv.append_obsolete {pre : List Entry} {s : Search} (h : Inv val pre s) {e : Entry}
    (hold : e.rev < s.rev) : Inv val (pre ++ [e]) s := by
  refine ⟨h.toSlots.append_of_ne (by omega), ?_, ?_⟩
  · intro f hf
    obtain hf | hf := List.mem_append.mp hf
    · exact h.rev_le f hf
    · rw [List.mem_singleton.mp hf]
      omega
  · obtain ⟨-, hzero⟩ | ⟨f, hf, hrev⟩ := h.rev_mem
    · omega
    · exact .inr ⟨f, List.mem_append_left _ hf, hrev⟩

/-- The search goes on with the revision of the last entry. -/
private theorem Slots.inv_append {pre : List Entry} {s : Search} {e : Entry}
    (h : Slots val (pre ++ [e]) s) (hrev : s.rev = e.rev) (hle : ∀ f ∈ pre, f.rev ≤ e.rev) :
    Inv val (pre ++ [e]) s := by
  refine ⟨h, ?_, .inr ⟨e, List.mem_append_right _ (List.mem_singleton_self e), hrev.symm⟩⟩
  intro f hf
  rw [hrev]
  obtain hf | hf := List.mem_append.mp hf
  · exact hle f hf
  · rw [List.mem_singleton.mp hf]

/-- If the array is too short for a segment that needs no more slots than the first one of its
    revision, the segment is that first one. -/
private theorem Slots.first_of_grows {pre : List Entry} {s : Search} (h : Slots val pre s)
    {e : Entry} {segs : List (List UInt8)} (hrev : s.rev = e.rev) (hpre : ∀ f ∈ pre, f.Ok val)
    (hle : ∀ f ∈ pre, f.rev ≤ e.rev) (hv : val e.rev = some segs) (hlt : segs.length < 2 ^ 32)
    (hcleared : e.seg ≠ tffsSegmentCleared) (hfits : ¬Outgrows pre e)
    (hmore : e.newNumSegs > s.segments.length) :
    (∀ f ∈ pre, f.rev ≠ e.rev) ∧ s.segments = [] := by
  have hlen := h.length_eq
  cases hfind : pre.find? fun f => f.rev = e.rev with
  | none =>
    rw [hrev, numSlots, hfind] at hlen
    refine ⟨fun f hf => by simpa using List.find?_eq_none.mp hfind f hf, ?_⟩
    exact List.length_eq_zero_iff.mp hlen
  -- an older entry of this revision would have room for all of its segments
  | some f =>
    have hfrev : f.rev = e.rev := by simpa using List.find?_some hfind
    have hok := hpre f (List.mem_of_find?_eq_some hfind)
    rw [Entry.Ok, hfrev, hv] at hok
    rw [hrev, numSlots, hfind] at hlen
    simp only at hlen
    rw [if_neg (hok.not_cleared hlt)] at hlen
    exact absurd ⟨hle, hcleared, f, hfind, by omega⟩ hfits

/-- The first entry of a revision makes the array. -/
private theorem growSegments_first {pre : List Entry} {e : Entry}
    (hfirst : ∀ f ∈ pre, f.rev ≠ e.rev) : growSegments c [] e.newNumSegs =
      .ok ((List.range e.newNumSegs).map (slotAt val pre e.rev)) := by
  have hnull : List.replicate e.newNumSegs Slot.null =
      (List.range e.newNumSegs).map (slotAt val pre e.rev) := by
    apply List.ext_getElem
    · simp
    · intro i hi hi'
      rw [List.getElem_replicate, List.getElem_map, slotAt, if_neg]
      rintro ⟨f, hf, hfrev, -⟩
      exact hfirst f hf hfrev
  rw [growSegments, ← hnull]
  simp

/-- The first entry of a revision is stored in the array that it makes. -/
private theorem Slots.store_first {pre : List Entry} {s : Search} {e : Entry} (hrev : s.rev = e.rev)
    (hcleared : e.seg ≠ tffsSegmentCleared) (hfirst : ∀ f ∈ pre, f.rev ≠ e.rev)
    (hseg : s.segments = (List.range e.newNumSegs).map (slotAt val (pre ++ [e]) e.rev)) :
    Slots val (pre ++ [e]) s := by
  -- it is the first of its revision
  have hfind : (pre ++ [e]).find? (fun f => f.rev = e.rev) = some e := by
    rw [find?_append_singleton, List.find?_eq_none.mpr fun f hf => by simpa using hfirst f hf]
    simp
  have hnum : numSlots (pre ++ [e]) e.rev = e.newNumSegs := by
    rw [numSlots, hfind]
    simp only
    rw [if_neg hcleared]
  refine ⟨by rw [hseg, hrev, hnum], fun f hf hfrev _ => ?_⟩
  rw [hrev] at hfrev ⊢
  rw [hnum]
  obtain hf | hf := List.mem_append.mp hf
  · exact absurd hfrev (hfirst f hf)
  · rw [List.mem_singleton.mp hf]

/-- A later entry is stored in the array that there is. -/
private theorem Slots.store_again {pre : List Entry} {s : Search} (h : Slots val pre s) {e : Entry}
    (hrev : s.rev = e.rev) (hdata : e.data = ((val e.rev).getD []).getD e.seg [])
    (hseg : e.seg < s.segments.length) (hmore : ¬e.newNumSegs > s.segments.length) :
    Slots val (pre ++ [e]) { s with segments := s.segments.set e.seg (.val e.data) } := by
  have hlen := h.length_eq
  -- the first entry of the revision fixed the number of slots; this one is not the first
  have hnum : numSlots (pre ++ [e]) e.rev = numSlots pre e.rev := by
    rw [numSlots, find?_append_singleton]
    cases hfind : pre.find? fun f => f.rev = e.rev with
    | none =>
      rw [hrev, numSlots, hfind] at hlen
      simp only at hlen
      omega
    | some f =>
      rw [numSlots, hfind]
      rfl
  constructor
  · simp only
    rw [h.segments_eq, hrev, map_slotAt_set hdata, hnum]
  · intro f hf hfrev hcleared
    simp only at hfrev ⊢
    rw [hrev] at hfrev ⊢
    rw [hnum]
    obtain hf | hf := List.mem_append.mp hf
    · have hfit := h.fits f hf (hfrev.trans hrev.symm) hcleared
      rw [hrev] at hfit
      exact hfit
    · rw [List.mem_singleton.mp hf, ← hrev, ← hlen]
      omega

/-- An entry that needs no more slots than the first one of its revision is stored. -/
theorem Inv.takeEntry {pre : List Entry} {s : Search} (h : Inv val pre s) (hval : Small val)
    {e : Entry} (hpre : ∀ f ∈ pre, f.Ok val) (he : e.Ok val) (hfits : ¬Outgrows pre e) :
    ∃ s', takeEntry c s e = .ok s' ∧ Inv val (pre ++ [e]) s' := by
  rw [TffsNand.takeEntry]
  -- an older revision is passed over, a newer one starts the search again
  by_cases hold : e.rev < s.rev
  · rw [if_pos hold]
    exact ⟨s, rfl, h.append_obsolete hold⟩
  · rw [if_neg hold]
    obtain ⟨hslots, hrev⟩ := h.newer (e := e) (by omega)
    have hle : ∀ f ∈ pre, f.rev ≤ e.rev := fun f hf => by
      have hle := h.rev_le f hf
      omega
    generalize (if e.rev > s.rev then { rev := e.rev, segments := [] } else s) = s1 at *
    simp only
    rw [Entry.Ok] at he
    cases hv : val e.rev with
    | none =>
      rw [hv] at he
      rw [if_pos he]
      have hcleared := hslots.append_cleared he fun f hf hfrev => by
        have hok := hpre f hf
        rw [Entry.Ok, hfrev, hrev, hv] at hok
        exact hok
      exact ⟨s1, rfl, hcleared.inv_append hrev hle⟩
    | some segs =>
      rw [hv] at he
      have hlt := hval e.rev segs hv
      have hnew := he.newNumSegs_eq hlt
      have hseg := he.seg_lt
      have hcleared := he.not_cleared hlt
      have hdata : e.data = ((val e.rev).getD []).getD e.seg [] := by
        rw [hv]
        exact he.data_eq
      rw [if_neg hcleared]
      by_cases hmore : e.newNumSegs > s1.segments.length
      -- only the first entry of a revision makes the array grow
      · obtain ⟨hfirst, hnil⟩ := hslots.first_of_grows hrev hpre hle hv hlt hcleared hfits hmore
        rw [if_pos hmore, hnil, growSegments_first hfirst]
        simp only [bind, Except.bind]
        rw [if_pos (by
          rw [List.length_map, List.length_range, hnew]
          split <;> omega), map_slotAt_set hdata]
        refine ⟨_, rfl, Slots.inv_append ?_ hrev hle⟩
        exact Slots.store_first hrev hcleared hfirst rfl
      · have hlt' : e.seg < s1.segments.length := by
          rw [hnew] at hmore
          split at hmore <;> omega
        rw [if_neg hmore]
        simp only [bind, Except.bind]
        rw [if_pos hlt']
        -- the slots are there; the segment goes to its own
        exact ⟨_, rfl, (hslots.store_again hrev hdata hlt' hmore).inv_append hrev hle⟩

/-- An entry that needs more slots is a fault: the `memset` writes behind the array. -/
theorem Inv.takeEntry_outgrows {pre : List Entry} {s : Search} (h : Inv val pre s)
    (hval : Small val) {e : Entry} (hpre : ∀ f ∈ pre, f.Ok val) (he : e.Ok val)
    (hout : Outgrows pre e) : TffsNand.takeEntry c s e = .error .outOfBounds := by
  obtain ⟨hle, hcleared, f, hfind, hlt⟩ := hout
  have hfmem := List.mem_of_find?_eq_some hfind
  have hfrev : f.rev = e.rev := by simpa using List.find?_some hfind
  have hge : s.rev ≤ e.rev := by
    obtain ⟨-, hzero⟩ | ⟨f', hf', hrev⟩ := h.rev_mem
    · omega
    · have hle' := hle f' hf'
      omega
  rw [TffsNand.takeEntry, if_neg (by omega)]
  obtain ⟨hslots, hrev⟩ := h.newer hge
  generalize (if e.rev > s.rev then { rev := e.rev, segments := [] } else s) = s1 at *
  have hlen := hslots.length_eq
  rw [hrev, numSlots, hfind] at hlen
  simp only at hlen
  have hok := hpre f hfmem
  rw [Entry.Ok] at he
  rw [Entry.Ok, hfrev] at hok
  cases hv : val e.rev with
  | none =>
    rw [hv] at he
    exact absurd he hcleared
  | some segs =>
    rw [hv] at hok
    have hsmall := hval e.rev segs hv
    -- the entry found first set up the slots of this revision
    have hnew := hok.newNumSegs_eq hsmall
    rw [if_neg (hok.not_cleared hsmall)] at hlen
    have hpos : 0 < s1.segments.length := by
      rw [hlen, hnew]
      split <;> omega
    -- slots of at least 8 bytes: the copy starts behind the array as soon as there is one slot
    have hstart : 8 * s1.segments.length ≤ s1.segments.length * c.sizeofSegment := by
      rw [Nat.mul_comm]
      exact Nat.mul_le_mul_left _ c.sizeof_ge
    have hgrow : growSegments c s1.segments e.newNumSegs = .error .outOfBounds := by
      rw [growSegments]
      rw [if_pos (by omega)]
    simp only
    rw [if_neg hcleared, if_pos (by omega), hgrow]
    rfl

/-! ### All entries -/

/-- At first nothing was taken. -/
theorem inv_nil : Inv val [] { rev := 0, segments := [] } :=
  ⟨slots_nil fun _ hf => absurd hf List.not_mem_nil, fun _ hf => absurd hf List.not_mem_nil,
    .inl ⟨rfl, rfl⟩⟩

/-- Entries that do not outgrow the array are all taken. -/
theorem Inv.foldlM {es pre : List Entry} {s : Search} (h : Inv val pre s) (hval : Small val)
    (hok : ∀ f ∈ pre ++ es, f.Ok val)
    (hfits : ∀ p e q, es = p ++ e :: q → ¬Outgrows (pre ++ p) e) :
    ∃ s', es.foldlM (TffsNand.takeEntry c) s = .ok s' ∧ Inv val (pre ++ es) s' := by
  -- one entry moves from the list to come into the list taken, and the invariant with it
  induction es generalizing pre s with
  | nil =>
    rw [List.append_nil]
    exact ⟨s, rfl, h⟩
  | cons e es ih =>
    have hhead : ¬Outgrows pre e := by
      have hfit := hfits [] e es rfl
      rwa [List.append_nil] at hfit
    obtain ⟨s1, htake, h1⟩ := h.takeEntry (c := c) hval
      (fun f hf => hok f (List.mem_append_left _ hf))
      (hok e (List.mem_append_right _ List.mem_cons_self)) hhead
    rw [← List.singleton_append, ← List.append_assoc] at hok ⊢
    obtain ⟨s', hrun, h'⟩ := ih h1 hok fun p f q heq => by
      have hfit := hfits (e :: p) f q (by rw [heq, List.cons_append])
      rwa [← List.singleton_append, ← List.append_assoc] at hfit
    refine ⟨s', ?_, h'⟩
    rw [List.singleton_append, List.foldlM_cons, htake]
    exact hrun

/-- An entry that outgrows the array is written outside. -/
theorem Inv.foldlM_outgrows {es pre : List Entry} {s : Search} (h : Inv val pre s)
    (hval : Small val) (hok : ∀ f ∈ pre ++ es, f.Ok val)
    (hout : ∃ p e q, es = p ++ e :: q ∧ Outgrows (pre ++ p) e) :
    es.foldlM (TffsNand.takeEntry c) s = .error .outOfBounds := by
  induction es generalizing pre s with
  | nil =>
    obtain ⟨p, e, q, heq, -⟩ := hout
    exact absurd heq.symm (List.append_ne_nil_of_right_ne_nil _ (List.cons_ne_nil e q))
  | cons e es ih =>
    have hpre : ∀ f ∈ pre, f.Ok val := fun f hf => hok f (List.mem_append_left _ hf)
    have he := hok e (List.mem_append_right _ List.mem_cons_self)
    rw [List.foldlM_cons]
    -- either this entry leaves the array, or a later one does
    by_cases hhead : Outgrows pre e
    · rw [h.takeEntry_outgrows hval hpre he hhead]
      rfl
    · obtain ⟨s1, htake, h1⟩ := h.takeEntry (c := c) hval hpre he hhead
      rw [htake]
      rw [← List.singleton_append, ← List.append_assoc] at hok
      apply ih h1 hok
      obtain ⟨p, f, q, heq, hf⟩ := hout
      cases p with
      | nil =>
        obtain ⟨rfl, rfl⟩ := List.cons.inj heq
        rw [List.append_nil] at hf
        exact absurd hf hhead
      | cons e' p =>
        obtain ⟨rfl, rfl⟩ := List.cons.inj heq
        rw [← List.singleton_append, ← List.append_assoc] at hf
        exact ⟨p, f, q, rfl, hf⟩

/-! ### The result -/

/-- The segments are joined if all are there. -/
theorem collect_slotAt (es : List Entry) (r : Nat) (l : List Nat) :
    collect (l.map (slotAt val es r)) =
      .ok (if ∀ i ∈ l, Present es r i then some (l.map fun i => ((val r).getD []).getD i [])
        else none) := by
  induction l with
  | nil => rfl
  | cons i l ih =>
    rw [List.map_cons, slotAt]
    by_cases hi : Present es r i
    · rw [if_pos hi, collect, ih]
      simp only [bind, Except.bind, List.forall_mem_cons, hi, true_and]
      split <;> rfl
    · rw [if_neg hi, collect, if_neg fun hall => hi (hall i List.mem_cons_self)]

/-- The array has a slot for every segment if no slot is empty, and only then. -/
theorem Slots.numSlots_eq {es : List Entry} {s : Search} (h : Slots val es s) (hval : Small val)
    (hok : ∀ f ∈ es, f.Ok val) (hmem : ∃ e ∈ es, e.rev = s.rev) {segs : List (List UInt8)}
    (hv : val s.rev = some segs) :
    0 < numSlots es s.rev ∧
    ((∀ i < numSlots es s.rev, Present es s.rev i) → numSlots es s.rev = segs.length) ∧
    ((∀ i < segs.length, Present es s.rev i) → numSlots es s.rev = segs.length) := by
  have hlt := hval s.rev segs hv
  have hsegment : ∀ f ∈ es, f.rev = s.rev → f.IsSegment segs := by
    intro f hf hrev
    have hf := hok f hf
    rwa [Entry.Ok, hrev, hv] at hf
  -- an entry asks for one slot more than its index unless it is the last segment
  have hbound : ∀ f ∈ es, f.rev = s.rev →
      (if f.seg + 1 = segs.length then f.seg + 1 else f.seg + 2) ≤ numSlots es s.rev := by
    intro f hf hrev
    rw [← (hsegment f hf hrev).newNumSegs_eq hlt]
    exact h.fits f hf hrev ((hsegment f hf hrev).not_cleared hlt)
  -- the number of slots is what the first entry of the revision asked for
  obtain ⟨f, hf, hfrev, hnum⟩ : ∃ f ∈ es, f.rev = s.rev ∧ numSlots es s.rev =
      if f.seg + 1 = segs.length then f.seg + 1 else f.seg + 2 := by
    cases hfind : es.find? fun f => f.rev = s.rev with
    | none =>
      obtain ⟨e, he, hrev⟩ := hmem
      exact absurd hrev (by simpa using List.find?_eq_none.mp hfind e he)
    | some f =>
      have hf := List.mem_of_find?_eq_some hfind
      have hrev : f.rev = s.rev := by simpa using List.find?_some hfind
      refine ⟨f, hf, hrev, ?_⟩
      rw [numSlots, hfind]
      simp only
      rw [if_neg ((hsegment f hf hrev).not_cleared hlt), (hsegment f hf hrev).newNumSegs_eq hlt]
  have hseg := (hsegment f hf hfrev).seg_lt
  refine ⟨?_, ?_, ?_⟩
  · rw [hnum]
    split <;> omega
  · intro hall
    by_cases hlast : f.seg + 1 = segs.length
    · rw [hnum, if_pos hlast, hlast]
    · rw [if_neg hlast] at hnum
      -- the segment behind the first entry is there, and asks for one more slot
      obtain ⟨e, he, herev, heseg⟩ := hall (f.seg + 1) (by omega)
      have hmore := hbound e he herev
      rw [heseg] at hmore
      split at hmore <;> omega
  · intro hall
    -- the last segment is there, so there are slots for all of them
    obtain ⟨e, he, herev, heseg⟩ := hall (segs.length - 1) (by omega)
    have hmore := hbound e he herev
    rw [heseg, if_pos (by omega)] at hmore
    have hle : numSlots es s.rev ≤ segs.length := by
      rw [hnum]
      split <;> omega
    omega

/-- A value whose segments are all there is shorter than the device. -/
theorem WellFormed.length_flatten_lt {sectors : List Sector} (h : WellFormed c id val sectors)
    {r : Nat} {segs : List (List UInt8)} (hv : val r = some segs)
    (hall : ∀ i < segs.length, Present (entries c id sectors) r i) :
    segs.flatten.length < 2 ^ 32 := by
  have hdata : ∀ e ∈ entries c id sectors, e.data.length ≤ tffsMaximumSegmentSize := by
    intro e he
    obtain ⟨sec, hsec, rfl⟩ := List.mem_map.mp he
    obtain ⟨hmem, hsec⟩ := List.mem_filter.mp hsec
    rw [Bool.and_eq_true, Bool.and_eq_true, decide_eq_true_eq] at hsec
    rw [Sector.entry, length_bytesAt]
    exact h.len_le sec hmem hsec.1.1 hsec.1.2
  have hlen : ∀ l ∈ segs.map List.length, l ≤ tffsMaximumSegmentSize := by
    intro l hl
    obtain ⟨seg, hseg, rfl⟩ := List.mem_map.mp hl
    obtain ⟨i, hi, rfl⟩ := List.mem_iff_getElem.mp hseg
    obtain ⟨e, he, hrev, heseg⟩ := hall i hi
    have hok := h.entry e he
    rw [Entry.Ok, hrev, hv] at hok
    have hle := hdata e he
    rwa [hok.data_eq, heseg, List.getD_eq_getElem _ _ hi] at hle
  -- each segment has a sector of its own
  have hcount : segs.length ≤ sectors.length := by
    have hsub : List.range segs.length ⊆ (entries c id sectors).map Entry.seg := by
      intro i hi
      obtain ⟨e, he, -, heseg⟩ := hall i (List.mem_range.mp hi)
      exact List.mem_map.mpr ⟨e, he, heseg⟩
    have hle := (List.subperm_of_subset List.nodup_range hsub).length_le
    rw [List.length_range, List.length_map, entries, List.length_map] at hle
    exact Nat.le_trans hle (List.length_filter_le _ _)
  -- so the value is shorter than the device, which is below 4 GiB
  have hsum := List.sum_le_card_nsmul (segs.map List.length) tffsMaximumSegmentSize hlen
  rw [List.length_map, smul_eq_mul] at hsum
  have hsize := h.size_lt
  rw [tffsSectorSize] at hsize
  rw [tffsMaximumSegmentSize, tffsEntryHeaderSize] at hsum
  rw [List.length_flatten]
  omega

/-- `find_entry` returns the value of the highest revision exactly if no segment needs more slots
    than the first one of its revision. Otherwise it writes behind the array of segments. -/
theorem findEntry_eq_iff (c : Cfg) (id : Nat) (val : Nat → Option (List (List UInt8)))
    (sectors : List Sector) (h : WellFormed c id val sectors) :
    findEntry c sectors id = .ok (lookup val (entries c id sectors)) ↔
      FirstFits (entries c id sectors) := by
  have hval : Small val := h.numSegs_lt
  have hok : ∀ f ∈ [] ++ entries c id sectors, f.Ok val := h.entry
  rw [findEntry, h.findEntryLoop_eq]
  constructor
  -- an entry that outgrows the array ends the call with a stray write, not with a value
  · intro heq
    by_contra hfits
    have hout : ∃ p e q, entries c id sectors = p ++ e :: q ∧ Outgrows ([] ++ p) e := by
      by_contra hnone
      exact hfits fun p e q heq hout => hnone ⟨p, e, q, heq, hout⟩
    rw [inv_nil.foldlM_outgrows hval hok hout] at heq
    cases heq
  · intro hfits
    obtain ⟨s, hrun, hinv⟩ := inv_nil.foldlM (c := c) hval hok fun p e q heq => hfits p e q heq
    rw [List.nil_append] at hinv
    rw [hrun]
    have hlen := hinv.length_eq
    simp only [bind, Except.bind]
    -- no entry at all, or the search ends at the revision the list has highest
    obtain ⟨hnil, hzero⟩ | hmem := hinv.rev_mem
    · rw [hnil, numSlots] at hlen
      simp only [List.find?_nil] at hlen
      rw [if_pos hlen, hnil]
      rfl
    · have hmax : ((entries c id sectors).map Entry.rev).max? = some s.rev := by
        apply List.max?_eq_some_iff.mpr
        obtain ⟨e, he, hrev⟩ := hmem
        refine ⟨List.mem_map.mpr ⟨e, he, hrev⟩, fun b hb => ?_⟩
        obtain ⟨f, hf, rfl⟩ := List.mem_map.mp hb
        exact hinv.rev_le f hf
      rw [lookup, hmax]
      simp only
      cases hv : val s.rev with
      | none =>
        -- every entry of the revision is a deletion
        have hzero : numSlots (entries c id sectors) s.rev = 0 := by
          rw [numSlots]
          cases hfind : (entries c id sectors).find? fun f => f.rev = s.rev with
          | none => rfl
          | some f =>
            have hok := h.entry f (List.mem_of_find?_eq_some hfind)
            have hrev : f.rev = s.rev := by simpa using List.find?_some hfind
            rw [Entry.Ok, hrev, hv] at hok
            simp only
            rw [if_pos hok]
        rw [if_pos (hlen.trans hzero)]
      | some segs =>
        obtain ⟨hpos, hslots, hsegs⟩ := hinv.toSlots.numSlots_eq hval h.entry hmem hv
        rw [if_neg (by omega), hinv.segments_eq, collect_slotAt, hv]
        simp only [List.mem_range, Option.getD_some]
        by_cases hall : ∀ i < segs.length, Present (entries c id sectors) s.rev i
        -- every segment is there: the slots joined in order are the value
        · have hnum := hsegs hall
          have hvals : (List.range segs.length).map (fun i => segs.getD i []) = segs := by
            apply List.ext_getElem
            · simp
            · intro i hi hi'
              rw [List.getElem_map, List.getElem_range, List.getD_eq_getElem _ _ hi']
          have hlt := h.length_flatten_lt hv hall
          rw [hnum, if_pos hall, if_pos hall, hvals]
          simp only
          rw [Nat.mod_eq_of_lt hlt, if_neg (Nat.lt_irrefl _)]
        -- a segment is missing, and the source gives up as the lookup does
        · rw [if_neg fun hslot => hall ((hslots hslot) ▸ hslot), if_neg hall]

/-! ### A value of three segments -/

/-- A 64-bit little-endian machine and a device with blocks of four sectors -/
def sampleCfg : Cfg :=
  { endian := .little
    swapBytes := false
    readOobSectorHealth := false
    blocksize := 4 * tffsSectorSize
    sizeofSegment := 16
    sizeof_ge := by decide }

/-- The sector of segment `i` of three; its data is one byte. -/
def sampleSector (i : Nat) : Sector :=
  { good := true
    readbuf := fun k => ([5, 1, 0, 1, i, if i = 2 then 0 else i + 1, i].getD (k / 4) 0).toUInt8 *
      (if k % 4 = 0 then 1 else 0)
    oobbuf := fun _ => 0 }

/-- A block with the three segments in some order -/
def sampleBlock (order : List Nat) : List Sector :=
  { good := false, readbuf := fun _ => 0, oobbuf := fun _ => 0 } :: order.map sampleSector

def sampleVal (r : Nat) : Option (List (List UInt8)) := if r = 1 then some [[0], [1], [2]] else none

/-- The entry of the sector -/
def sampleEntry (i : Nat) : Entry :=
  { rev := 1, seg := i, nextSeg := if i = 2 then 0 else i + 1, data := [i.toUInt8] }

/-- The sectors of the examples. -/
private theorem sampleSector_eq {i : Nat} (hi : i < 3) :
    (sampleSector i).readId sampleCfg = 5 ∧ (sampleSector i).readLen sampleCfg = 1 ∧
      (sampleSector i).entry sampleCfg = sampleEntry i := by
  interval_cases i <;> exact ⟨rfl, rfl, rfl⟩

/-- The entries of the examples, in any order. -/
theorem entries_sampleBlock {order : List Nat} (h : ∀ i ∈ order, i < 3) :
    entries sampleCfg 5 (sampleBlock order) = order.map sampleEntry := by
  -- the sectors behind the header hold the entries in their order
  have htail : ∀ l : List Nat, (∀ i ∈ l, i < 3) →
      entries sampleCfg 5 (l.map sampleSector) = l.map sampleEntry := by
    intro l hl
    induction l with
    | nil => rfl
    | cons i l ih =>
      obtain ⟨hid, -, hentry⟩ := sampleSector_eq (hl i List.mem_cons_self)
      rw [List.map_cons, List.map_cons, ← ih fun j hj => hl j (List.mem_cons_of_mem i hj), entries,
        List.filter_cons_of_pos, List.map_cons, hentry, entries]
      rw [hid]
      rfl
  rw [← htail order h]
  rfl

/-- The flash of the examples is well formed. -/
theorem wellFormed_sampleBlock {order : List Nat} (h : ∀ i ∈ order, i < 3)
    (hlen : order.length ≤ 3) : WellFormed sampleCfg 5 sampleVal (sampleBlock order) := by
  -- behind the header every sector carries one segment of entry 5
  have hsec : ∀ sec ∈ sampleBlock order, sec.good = true →
      sec.readId sampleCfg = 5 ∧ sec.readLen sampleCfg = 1 := by
    intro sec hmem hgood
    obtain rfl | hmem := List.mem_cons.mp hmem
    · cases hgood
    · obtain ⟨i, hi, rfl⟩ := List.mem_map.mp hmem
      exact ⟨(sampleSector_eq (h i hi)).1, (sampleSector_eq (h i hi)).2.1⟩
  have hlength : (sampleBlock order).length ≤ 4 := by
    rw [sampleBlock, List.length_cons, List.length_map]
    omega
  constructor
  -- the one block starts at the header
  · intro k sec hk hmod
    have hlt : k < 4 := by
      obtain ⟨hlt, -⟩ := List.getElem?_eq_some_iff.mp hk
      omega
    have hmod : k * 0x800 % (4 * 0x800) = 0 := hmod
    obtain rfl : k = 0 := by omega
    cases hk
    rfl
  · exact fun hhealth => absurd hhealth Bool.false_ne_true
  · intro j k secj seck hj _ _ hgood hid
    rw [(hsec secj (List.mem_of_getElem? hj) hgood).1] at hid
    exact absurd hid (by decide)
  · intro sec hmem hgood _
    rw [(hsec sec hmem hgood).2]
    decide
  · intro e he
    rw [entries_sampleBlock h] at he
    obtain ⟨i, hi, rfl⟩ := List.mem_map.mp he
    have hi3 := h i hi
    interval_cases i <;> exact ⟨by decide, rfl, rfl⟩
  · intro r segs hr
    rw [sampleVal] at hr
    split at hr
    · cases hr
      decide
    · cases hr
  · rw [tffsSectorSize]
    omega

/-- The last segment comes first, and the value is put together. -/
theorem findEntry_sample_last_first :
    findEntry sampleCfg (sampleBlock [2, 0, 1]) 5 =
        .ok (lookup sampleVal (entries sampleCfg 5 (sampleBlock [2, 0, 1]))) ∧
      lookup sampleVal (entries sampleCfg 5 (sampleBlock [2, 0, 1])) = some [0, 1, 2] := by
  have hentries : entries sampleCfg 5 (sampleBlock [2, 0, 1]) = [2, 0, 1].map sampleEntry :=
    entries_sampleBlock (by decide)
  refine ⟨(findEntry_eq_iff sampleCfg 5 sampleVal _
    (wellFormed_sampleBlock (by decide) (by decide))).mpr ?_, ?_⟩
  · -- no entry needs more slots than the last segment
    have hmost : ∀ e ∈ [2, 0, 1].map sampleEntry, e.newNumSegs ≤ 3 := by decide
    rw [hentries]
    -- the block has three segments, and the last one, which comes first, asks for three slots
    rintro pre e post heq ⟨-, -, f, hfind, hlt⟩
    have he : e.newNumSegs ≤ 3 := hmost e (heq ▸ List.mem_append_right pre List.mem_cons_self)
    have hrev : e.rev = 1 := by
      have hall : ∀ e ∈ [2, 0, 1].map sampleEntry, e.rev = 1 := by decide
      exact hall e (heq ▸ List.mem_append_right pre List.mem_cons_self)
    cases pre with
    | nil => cases hfind
    | cons a pre =>
      obtain rfl : sampleEntry 2 = a := (List.cons.inj heq).1
      rw [List.find?_cons_of_pos (by rw [hrev]; decide)] at hfind
      cases hfind
      exact absurd hlt (Nat.not_lt.mpr he)
  · rw [hentries]
    decide

/-- The segments of a value in their order -/
theorem findEntry_sample_in_order :
    WellFormed sampleCfg 5 sampleVal (sampleBlock [0, 1, 2]) ∧
    lookup sampleVal (entries sampleCfg 5 (sampleBlock [0, 1, 2])) = some [0, 1, 2] ∧
    findEntry sampleCfg (sampleBlock [0, 1, 2]) 5 = .error .outOfBounds := by
  refine ⟨wellFormed_sampleBlock (by decide) (by decide), ?_, ?_⟩
  · rw [entries_sampleBlock (by decide)]
    decide
  · rfl

end HandsomeMod.Native.TffsNand
