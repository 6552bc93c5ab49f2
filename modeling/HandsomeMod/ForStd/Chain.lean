import Mathlib

/-!
# Chained lists

Singly linked lists of nodes in memory, each with a head of its own, that are edited through
pointers to pointers. Abstractly they are one list of nodes for each head, without a node in common.
Unlinking a node and pushing one take the same list operations there.
-/

namespace HandsomeMod.ForStd

universe u

/-- A pointer to a pointer: to the head of a list, or to the `next` of a node. -/
inductive Slot (κ : Type u) where
  | head (k : κ)
  | next (a : Nat)
  deriving DecidableEq

/-- The pointers of the lists; `none` is NULL. -/
structure Links (κ : Type u) where
  head : κ → Option Nat
  next : Nat → Option Nat

namespace Links

variable {κ : Type u}

/-- `*slot` -/
def read (s : Links κ) : Slot κ → Option Nat
  | .head k => s.head k
  | .next a => s.next a

/-- `for (prev = slot, t = *prev; t && !stop(t); prev = &t->next, t = *prev);` leaves this `prev`.
    The first argument bounds the turns. -/
def find (s : Links κ) (stop : Nat → Bool) : Nat → Slot κ → Option (Slot κ)
  | 0, _ => none
  | fuel + 1, prev =>
    match s.read prev with
    | none => some prev
    | some t => if stop t then some prev else find s stop fuel (.next t)

/-- The nodes from a slot on. -/
def Chain (s : Links κ) : Slot κ → List Nat → Prop
  | slot, [] => s.read slot = none
  | slot, a :: l => s.read slot = some a ∧ Chain s (.next a) l

/-- The slot behind the nodes of a list. -/
def slotAfter : Slot κ → List Nat → Slot κ
  | slot, [] => slot
  | _, a :: l => slotAfter (.next a) l

variable {s : Links κ} {slot : Slot κ} {l pre post : List Nat} {t : Nat}

/-- The slot behind a list that is not empty belongs to one of its nodes. -/
theorem slotAfter_cons (slot : Slot κ) (a : Nat) (l : List Nat) :
    ∃ b ∈ a :: l, slotAfter slot (a :: l) = .next b := by
  induction l generalizing slot a with
  | nil => exact ⟨a, List.mem_cons_self, rfl⟩
  | cons a' l ih =>
    obtain ⟨b, hb, heq⟩ := ih (.next a) a'
    exact ⟨b, List.mem_cons_of_mem a hb, heq⟩

/-- A slot behind nodes of the list belongs to one of them. -/
theorem slotAfter_ne {slot' : Slot κ} (hslot : slot' ≠ slot) (hl : ∀ a ∈ l, slot' ≠ .next a) :
    slot' ≠ slotAfter slot l := by
  cases l with
  | nil => exact hslot
  | cons a l =>
    obtain ⟨b, hb, heq⟩ := slotAfter_cons slot a l
    rw [heq]
    exact hl b hb

/-- Behind its first nodes a chain is a chain of the others. -/
theorem Chain.after (h : s.Chain slot (pre ++ post)) : s.Chain (slotAfter slot pre) post := by
  induction pre generalizing slot with
  | nil => exact h
  | cons a pre ih => exact ih h.2

/-- The node behind a slot is the first of the rest. -/
theorem Chain.read_eq (h : s.Chain slot l) : s.read slot = l.head? := by
  cases l with
  | nil => exact h
  | cons a l => exact h.1

/-- The nodes from a slot on are determined by the pointers. -/
theorem Chain.unique {l' : List Nat} (h : s.Chain slot l) (h' : s.Chain slot l') : l' = l := by
  induction l generalizing slot l' with
  | nil =>
    cases l' with
    | nil => rfl
    | cons b l' => exact absurd (h'.1.symm.trans h) (by simp)
  | cons a l ih =>
    cases l' with
    | nil => exact absurd (h.1.symm.trans h') (by simp)
    | cons b l' =>
      obtain rfl : b = a := Option.some.inj (h'.1.symm.trans h.1)
      rw [ih h.2 h'.2]

/-- The search stops behind the nodes that it skips. -/
theorem Chain.find {stop : Nat → Bool} {fuel : Nat} (h : s.Chain slot l) (hfuel : l.length < fuel) :
    s.find stop fuel slot = some (Links.slotAfter slot (l.takeWhile fun a => !stop a)) := by
  induction l generalizing slot fuel with
  | nil =>
    obtain ⟨fuel, rfl⟩ := Nat.exists_eq_succ_of_ne_zero (Nat.ne_of_gt hfuel)
    rw [Links.find, h.read_eq]
    rfl
  | cons a l ih =>
    obtain ⟨fuel, rfl⟩ := Nat.exists_eq_succ_of_ne_zero (Nat.ne_of_gt (Nat.zero_lt_of_lt hfuel))
    rw [List.length_cons, Nat.succ_lt_succ_iff] at hfuel
    rw [Links.find, h.1]
    by_cases hstop : stop a
    · simp [hstop, Links.slotAfter]
    · simp [hstop, ih h.2 hfuel, Links.slotAfter]

/-! ### All lists -/

/-- The lists of nodes behind the heads. -/
structure Lists (s : Links κ) (nodes : κ → List Nat) : Prop where
  chain : ∀ k, s.Chain (.head k) (nodes k)
  nodup : ∀ k, (nodes k).Nodup
  disjoint : ∀ k k', k ≠ k' → (nodes k).Disjoint (nodes k')

variable {nodes : κ → List Nat} {k : κ}

/-- With enough fuel a search ends at the slot of the first node that it stops at. -/
theorem Lists.find (h : s.Lists nodes) {stop : Nat → Bool} {fuel : Nat}
    (hfuel : (nodes k).length < fuel) :
    s.find stop fuel (.head k) =
      some (slotAfter (.head k) ((nodes k).takeWhile fun a => !stop a)) :=
  (h.chain k).find hfuel

/-- The search finds the slot of the first node that it stops at, or the end of the list. -/
theorem Lists.find_node (h : s.Lists nodes) {stop : Nat → Bool} {fuel : Nat}
    (hfuel : (nodes k).length < fuel) :
    ∃ pre, s.find stop fuel (.head k) = some (slotAfter (.head k) pre) ∧
      s.read (slotAfter (.head k) pre) = (nodes k).find? stop ∧
      ∀ t, (nodes k).find? stop = some t → ∃ post, nodes k = pre ++ t :: post := by
  have hsplit : (nodes k).takeWhile (fun a => !stop a) ++ (nodes k).dropWhile (fun a => !stop a) =
      nodes k := List.takeWhile_append_dropWhile
  have hrest : ((nodes k).dropWhile fun a => !stop a).head? = (nodes k).find? stop :=
    (List.find?_eq_head?_dropWhile_not stop (nodes k)).symm
  have hchain := h.chain k
  rw [← hsplit] at hchain
  refine ⟨_, h.find hfuel, ?_, fun t ht => ?_⟩
  · rw [hchain.after.read_eq, hrest]
  · rw [← hrest] at ht
    obtain ⟨post, hpost⟩ := List.head?_eq_some_iff.mp ht
    exact ⟨post, by rw [← hpost, hsplit]⟩

/-- Nodes below a bound are not more than the bound. -/
theorem Lists.length_le (h : s.Lists nodes) {n : Nat} (hlt : ∀ a ∈ nodes k, a < n) :
    (nodes k).length ≤ n := by
  have hsub : nodes k ⊆ List.range n := fun a ha => List.mem_range.mpr (hlt a ha)
  have hle := ((h.nodup k).subperm hsub).length_le
  rwa [List.length_range] at hle

/-- Lists without nodes. -/
theorem Lists.empty (next : Nat → Option Nat) :
    (⟨fun _ => none, next⟩ : Links κ).Lists fun _ => [] :=
  ⟨fun _ => rfl, fun _ => List.nodup_nil, fun _ _ _ => List.disjoint_nil_left _⟩

/-! ### Writes -/

section Write

variable [DecidableEq κ]

/-- `*slot = p` -/
def write (s : Links κ) (slot : Slot κ) (p : Option Nat) : Links κ :=
  match slot with
  | .head k => { s with head := Function.update s.head k p }
  | .next a => { s with next := Function.update s.next a p }

/-- A write changes the slot that it is for. -/
theorem read_write (s : Links κ) (slot slot' : Slot κ) (p : Option Nat) :
    (s.write slot p).read slot' = if slot' = slot then p else s.read slot' := by
  cases slot <;> cases slot' <;> simp [read, write, Function.update_apply]

@[simp] theorem read_write_self (s : Links κ) (slot : Slot κ) (p : Option Nat) :
    (s.write slot p).read slot = p := by
  simp [read_write]

/-- A write keeps the other slots. -/
theorem read_write_of_ne (s : Links κ) {slot slot' : Slot κ} (p : Option Nat) (h : slot' ≠ slot) :
    (s.write slot p).read slot' = s.read slot' := by
  simp [read_write, h]

/-- A write to a slot that is not one of the list. -/
theorem Chain.write_of_ne {slot' : Slot κ} (h : s.Chain slot l) (hslot : slot ≠ slot')
    (hl : ∀ a ∈ l, slot' ≠ .next a) (p : Option Nat) : (s.write slot' p).Chain slot l := by
  induction l generalizing slot with
  | nil =>
    show (s.write slot' p).read slot = none
    rw [read_write_of_ne s p hslot]
    exact h
  | cons a l ih =>
    refine ⟨?_, ih h.2 (hl a List.mem_cons_self).symm fun b hb => hl b (List.mem_cons_of_mem a hb)⟩
    rw [read_write_of_ne s p hslot]
    exact h.1

/-- A slot that is made to point where another one does. -/
theorem Chain.redirect {slot' : Slot κ} (h : s.Chain slot' l) (hl : ∀ a ∈ l, slot ≠ .next a) :
    (s.write slot (s.read slot')).Chain slot l := by
  cases l with
  | nil =>
    show (s.write slot (s.read slot')).read slot = none
    rw [read_write_self]
    exact h
  | cons a l =>
    refine ⟨by rw [read_write_self]; exact h.1, ?_⟩
    exact h.2.write_of_ne (hl a List.mem_cons_self).symm
      (fun b hb => hl b (List.mem_cons_of_mem a hb)) _

/-- The node behind a slot is taken out. -/
theorem Chain.unlink (h : s.Chain slot (pre ++ t :: post)) (hnodup : (pre ++ t :: post).Nodup)
    (hslot : ∀ a ∈ pre ++ t :: post, slot ≠ .next a) :
    (s.write (Links.slotAfter slot pre) (s.next t)).Chain slot (pre ++ post) := by
  induction pre generalizing slot with
  | nil => exact h.2.redirect fun a ha => hslot a (List.mem_cons_of_mem t ha)
  | cons a pre ih =>
    obtain ⟨ha, hnodup⟩ := List.nodup_cons.mp hnodup
    -- the slot written is a node's own, and the first slot is none of them
    have hne : slot ≠ Links.slotAfter slot (a :: pre) := by
      obtain ⟨b, hb, heq⟩ := slotAfter_cons slot a pre
      rw [heq]
      exact hslot b (List.mem_append_left _ hb)
    refine ⟨?_, ih h.2 hnodup fun b hb hab => ?_⟩
    · rw [read_write_of_ne s _ hne]
      exact h.1
    · cases hab
      exact ha hb

/-- Take a node out of a list. -/
theorem Lists.unlink (h : s.Lists nodes) (hk : nodes k = pre ++ t :: post) :
    (s.write (slotAfter (.head k) pre) (s.next t)).Lists
      (Function.update nodes k (pre ++ post)) := by
  have hsub : (pre ++ post).Sublist (nodes k) := by
    rw [hk]
    exact (List.Sublist.refl pre).append (List.sublist_cons_self t post)
  have hupdate : ∀ k', (Function.update nodes k (pre ++ post) k').Sublist (nodes k') := by
    intro k'
    by_cases heq : k' = k
    · rw [heq, Function.update_self]
      exact hsub
    · rw [Function.update_of_ne heq]
  refine ⟨fun k' => ?_, fun k' => (h.nodup k').sublist (hupdate k'), fun k' k'' hne => ?_⟩
  · have hchain := h.chain k
    have hnodup := h.nodup k
    rw [hk] at hchain hnodup
    by_cases heq : k' = k
    · rw [heq, Function.update_self]
      exact hchain.unlink hnodup fun a _ => by simp
    · rw [Function.update_of_ne heq]
      -- the slot is one of list `k`
      refine (h.chain k').write_of_ne ?_ (fun a ha => ?_) _
      · exact slotAfter_ne (by simp [heq]) fun a _ => by simp
      · refine (slotAfter_ne (by simp) fun b hb => ?_).symm
        rintro ⟨⟩
        exact h.disjoint k' k heq ha (by rw [hk]; exact List.mem_append_left _ hb)
  · exact List.disjoint_of_subset_left (hupdate k').subset
      (List.disjoint_of_subset_right (hupdate k'').subset (h.disjoint k' k'' hne))

/-- Put a node that is in no list in front of one. -/
theorem Lists.push (h : s.Lists nodes) (ht : ∀ k', t ∉ nodes k') (k : κ) :
    ((s.write (.next t) (s.head k)).write (.head k) (some t)).Lists
      (Function.update nodes k (t :: nodes k)) := by
  have hnext : ∀ k', (s.write (.next t) (s.head k)).Chain (.head k') (nodes k') := fun k' =>
    (h.chain k').write_of_ne (by simp) (fun a ha => by rintro ⟨⟩; exact ht k' ha) _
  have hrest : (s.write (.next t) (s.head k)).Chain (.next t) (nodes k) :=
    (h.chain k).redirect fun a ha => by rintro ⟨⟩; exact ht k ha
  refine ⟨fun k' => ?_, fun k' => ?_, fun k' k'' hne => ?_⟩
  · by_cases heq : k' = k
    · rw [heq, Function.update_self]
      exact ⟨read_write_self .., hrest.write_of_ne (by simp) (fun a _ => by simp) _⟩
    · rw [Function.update_of_ne heq]
      exact (hnext k').write_of_ne (by simp [heq]) (fun a _ => by simp) _
  · by_cases heq : k' = k
    · rw [heq, Function.update_self]
      exact List.nodup_cons.mpr ⟨ht k, h.nodup k⟩
    · rw [Function.update_of_ne heq]
      exact h.nodup k'
  -- the new node is in no chain, so the chain it heads stays apart from the others
  · have hnot : ∀ k', k' ≠ k → (t :: nodes k).Disjoint (nodes k') := by
      intro k' hk'
      exact List.disjoint_cons_left.mpr ⟨ht k', h.disjoint k k' hk'.symm⟩
    by_cases heq : k' = k
    · rw [heq, Function.update_self, Function.update_of_ne (by rw [← heq]; exact hne.symm)]
      exact hnot k'' (by rw [← heq]; exact hne.symm)
    · rw [Function.update_of_ne heq]
      by_cases heq' : k'' = k
      · rw [heq', Function.update_self]
        exact (hnot k' heq).symm
      · rw [Function.update_of_ne heq']
        exact h.disjoint k' k'' hne

end Write

end Links

end HandsomeMod.ForStd
