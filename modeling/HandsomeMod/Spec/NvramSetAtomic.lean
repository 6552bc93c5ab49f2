import HandsomeMod.Spec.NvramRefines

/-!
# Setting variables without memory

`nvram_set` may fail in three places. It leaves the variables as they were, but for one of them: when
the value of an old tuple cannot be reallocated, the tuple has already lost the old value.

A handle is reached by any calls, with any of their allocations failing.
-/

namespace HandsomeMod.Native.Nvram

open ForStd Links

variable {d : Device} {h h' : Heap} {nodes nodes' : Head → List Nat} {offset : Nat}
  {name value : CString} {a : Allocs} {r : Int}

/-- With all allocations this is the other `nvram_set`. -/
theorem setWith_all (h : Heap) (offset : Nat) (name value : CString) :
    h.setWith d ⟨true, true⟩ offset name value = h.set d offset name value := by
  unfold Heap.setWith Heap.set
  cases h.find d name with
  | none => rfl
  | some prev =>
    dsimp only
    unfold Heap.reallocWith Heap.realloc
    -- the value is too long, there is no tuple yet, or there is one with this value or another
    by_cases hlong : strlen value + 1 > room d offset
    · simp [hlong]
    · cases hread : h.links.read prev with
      | none => simp [hlong, hread, Heap.ensure, Heap.storeValue, Heap.alloc]
      | some t =>
        by_cases hsame : h.value t = some value <;>
          simp [hlong, hread, Heap.ensure, Heap.storeValue, hsame]

/-! ### The chains -/

/-- The tuples in memory are on chains. Their values may be NULL. -/
structure Linked (h : Heap) (nodes : Head → List Nat) : Prop where
  lists : h.links.Lists nodes
  lt : ∀ k, ∀ t ∈ nodes k, t < h.brk

/-- The heap after `_nvram_free` is linked. -/
theorem linked_free (h : Heap) : Linked h.free fun _ => [] :=
  ⟨Lists.empty _, fun _ _ ht => absurd ht List.not_mem_nil⟩

/-- The tuple of a name. -/
def named (d : Device) (h : Heap) (nodes : Head → List Nat) (name : CString) : Option Nat :=
  (nodes (.bucket (bucket d name))).find? fun t => decide (h.name t = name)

/-- The node with a name is in its bucket. -/
private theorem mem_of_named {t : Nat} (ht : named d h nodes name = some t) :
    t ∈ nodes (.bucket (bucket d name)) := List.mem_of_find?_eq_some ht

/-- What the search of the source leaves in `prev` and `t`. -/
theorem Linked.find (hl : Linked h nodes) (name : CString) :
    ∃ pre, h.find d name = some (slotAfter (.head (.bucket (bucket d name))) pre) ∧
      h.links.read (slotAfter (.head (.bucket (bucket d name))) pre) = named d h nodes name ∧
      ∀ t, named d h nodes name = some t →
        ∃ post, nodes (.bucket (bucket d name)) = pre ++ t :: post :=
  hl.lists.find_node (Nat.lt_succ_of_le (hl.lists.length_le (hl.lt _)))

/-- A lookup goes through the bucket of its name. -/
theorem Linked.get (hl : Linked h nodes) (name : CString) :
    h.get d name = some ((named d h nodes name).bind h.value) := by
  obtain ⟨pre, hfind, hread, -⟩ := hl.find (d := d) name
  rw [Heap.get, hfind]
  cases ht : named d h nodes name with
  | none => simp [hread, ht]
  | some t => simp [hread, ht]

/-- A new node is in no list. -/
theorem Linked.not_mem_brk (hl : Linked h nodes) (k : Head) : h.brk ∉ nodes k :=
  fun hmem => Nat.lt_irrefl _ (hl.lt k _ hmem)

/-- A value is written: the chains stay. -/
theorem Linked.setValue (hl : Linked h nodes) (v : Nat → Option CString) :
    Linked { h with value := v } nodes := ⟨hl.lists, hl.lt⟩

/-- A tuple that is in no chain yet. -/
theorem Linked.alloc (hl : Linked h nodes) (name : CString) : Linked (h.alloc name).1 nodes :=
  ⟨hl.lists, fun k t ht => Nat.lt_succ_of_lt (hl.lt k t ht)⟩

/-- A node may be put in front of a list. -/
theorem Linked.push (hl : Linked h nodes) {t : Nat} (hnot : ∀ k, t ∉ nodes k) (hlt : t < h.brk)
    (k : Head) : Linked (h.push k t) (Function.update nodes k (t :: nodes k)) := by
  refine ⟨hl.lists.push hnot k, fun k' u hu => ?_⟩
  by_cases hk : k' = k
  · rw [hk, Function.update_self, List.mem_cons] at hu
    obtain rfl | hu := hu
    · exact hlt
    · exact hl.lt k u hu
  · rw [Function.update_of_ne hk] at hu
    exact hl.lt k' u hu

/-- A tuple goes from its chain to the dead table. -/
theorem Linked.bury (hl : Linked h nodes) {k : Head} {pre post : List Nat} {t : Nat}
    (hnodes : nodes k = pre ++ t :: post) :
    ∃ nodes', Linked (h.bury (slotAfter (.head k) pre) t) nodes' := by
  have hmem : t ∈ nodes k := by simp [hnodes]
  have hnodup := hl.lists.nodup k
  rw [hnodes, List.nodup_middle, List.nodup_cons] at hnodup
  -- taken out of its bucket the cell is on no list
  have hout : Linked { h with links := h.links.write (slotAfter (.head k) pre) (h.links.next t) }
      (Function.update nodes k (pre ++ post)) := by
    refine ⟨hl.lists.unlink hnodes, fun k' u hu => ?_⟩
    by_cases hk : k' = k
    · rw [hk, Function.update_self] at hu
      refine hl.lt k u ?_
      rw [hnodes, List.mem_append, List.mem_cons]
      exact (List.mem_append.mp hu).imp_right .inr
    · rw [Function.update_of_ne hk] at hu
      exact hl.lt k' u hu
  refine ⟨_, hout.push (fun k' => ?_) (hl.lt k t hmem) .dead⟩
  by_cases hk : k' = k
  · rw [hk, Function.update_self]
    exact hnodup.1
  · rw [Function.update_of_ne hk]
    exact fun ht => hl.lists.disjoint _ _ hk ht hmem

/-! ### One call -/

/-- The tuples and the return value of a `nvram_set`. -/
inductive SetStep (d : Device) (h : Heap) (nodes : Head → List Nat) (a : Allocs) (offset : Nat)
    (name value : CString) : Heap → Int → Prop where
  | tooLong (hlong : room d offset < strlen value + 1) :
    SetStep d h nodes a offset name value h (-12)
  | noTuple (hfits : strlen value + 1 ≤ room d offset) (hnew : named d h nodes name = none)
    (hmalloc : a.malloc = false) : SetStep d h nodes a offset name value h (-12)
  | noValue (hfits : strlen value + 1 ≤ room d offset) (hnew : named d h nodes name = none)
    (hmalloc : a.malloc = true) (hrealloc : a.realloc = false) :
    SetStep d h nodes a offset name value
      { (h.alloc name).1 with value := Function.update (h.alloc name).1.value h.brk none } (-12)
  | added (hfits : strlen value + 1 ≤ room d offset) (hnew : named d h nodes name = none)
    (hmalloc : a.malloc = true) (hrealloc : a.realloc = true) :
    SetStep d h nodes a offset name value
      ({ (h.alloc name).1 with
        value := Function.update (h.alloc name).1.value h.brk (some value) }.push
          (.bucket (bucket d name)) h.brk) 0
  | same (hfits : strlen value + 1 ≤ room d offset) (t : Nat) (hold : named d h nodes name = some t)
    (hsame : h.value t = some value) : SetStep d h nodes a offset name value h 0
  | changed (hfits : strlen value + 1 ≤ room d offset) (t : Nat)
    (hold : named d h nodes name = some t) (hne : h.value t ≠ some value)
    (hrealloc : a.realloc = true) :
    SetStep d h nodes a offset name value
      { h with value := Function.update h.value t (some value) } 0
  | lost (hfits : strlen value + 1 ≤ room d offset) (t : Nat)
    (hold : named d h nodes name = some t) (hne : h.value t ≠ some value)
    (hrealloc : a.realloc = false) :
    SetStep d h nodes a offset name value { h with value := Function.update h.value t none } (-12)

/-- Setting a value returns, and does what is described, for any allocations. -/
theorem Linked.setWith (hl : Linked h nodes) (a : Allocs) (offset : Nat) (name value : CString) :
    ∃ h' r, h.setWith d a offset name value = some (h', r) ∧
      SetStep d h nodes a offset name value h' r := by
  obtain ⟨pre, hfind, hread, -⟩ := hl.find (d := d) name
  obtain ⟨malloc, realloc⟩ := a
  unfold Heap.setWith
  rw [hfind]
  by_cases hlong : strlen value + 1 > room d offset
  · refine ⟨h, -12, ?_, .tooLong hlong⟩
    simp [Heap.reallocWith, hlong]
  have hfits := Nat.not_lt.mp hlong
  -- no tuple of this name: one is allocated, then its value
  cases ht : named d h nodes name with
  | none =>
    rw [ht] at hread
    cases malloc with
    | false => exact ⟨_, _, by simp [Heap.reallocWith, hlong, hread, Heap.ensure], .noTuple hfits ht rfl⟩
    | true =>
      cases realloc with
      | false =>
        refine ⟨_, _, ?_, .noValue hfits ht rfl rfl⟩
        simp [Heap.reallocWith, hlong, hread, Heap.ensure, Heap.storeValue, Heap.alloc]
      | true =>
        refine ⟨_, _, ?_, .added hfits ht rfl rfl⟩
        simp [Heap.reallocWith, hlong, hread, Heap.ensure, Heap.storeValue, Heap.alloc]
  | some t =>
    rw [ht] at hread
    -- the tuple is there: nothing to do, or its value is allocated anew
    by_cases hsame : h.value t = some value
    · refine ⟨_, _, ?_, .same hfits t ht hsame⟩
      simp [Heap.reallocWith, hlong, hread, Heap.ensure, hsame]
    · cases realloc with
      | false =>
        refine ⟨_, _, ?_, .lost hfits t ht hsame rfl⟩
        simp [Heap.reallocWith, hlong, hread, Heap.ensure, Heap.storeValue, hsame]
      | true =>
        refine ⟨_, _, ?_, .changed hfits t ht hsame rfl⟩
        simp [Heap.reallocWith, hlong, hread, Heap.ensure, Heap.storeValue, hsame]

/-- It leaves the lists linked. -/
theorem SetStep.linked (hs : SetStep d h nodes a offset name value h' r) (hl : Linked h nodes) :
    ∃ nodes', Linked h' nodes' := by
  cases hs with
  | tooLong | noTuple | same => exact ⟨nodes, hl⟩
  | noValue => exact ⟨nodes, (hl.alloc name).setValue _⟩
  | added => exact ⟨_, ((hl.alloc name).setValue _).push hl.not_mem_brk (Nat.lt_succ_self _) _⟩
  | changed | lost => exact ⟨nodes, hl.setValue _⟩

/-! ### What a call that fails keeps -/

/-- Every variable reads as before, and a value in a chain that was a string is one. -/
structure Heap.Keeps (d : Device) (h h' : Heap) : Prop where
  get : ∀ name, h'.get d name = h.get d name
  valid : ∀ i l, h'.links.Chain (.head (.bucket i)) l →
    ∀ t ∈ l, (h.value t).isSome → (h'.value t).isSome

/-- A heap keeps its values. -/
theorem Heap.Keeps.refl (d : Device) (h : Heap) : h.Keeps d h :=
  ⟨fun _ => rfl, fun _ _ _ _ _ hv => hv⟩

/-- Tuples in no chain are not read. -/
theorem Linked.keeps (hl : Linked h nodes) (hl' : Linked h' nodes)
    (hname : ∀ k, ∀ t ∈ nodes k, h'.name t = h.name t)
    (hvalue : ∀ k, ∀ t ∈ nodes k, h'.value t = h.value t) : h.Keeps d h' := by
  constructor
  · intro name
    -- the chains and the names are the same, so the same tuple is found
    have hnamed : named d h' nodes name = named d h nodes name := by
      apply List.find?_congr
      intro t ht
      rw [hname _ t ht]
    rw [hl'.get, hl.get, hnamed]
    cases ht : named d h nodes name with
    | none => rfl
    | some t => exact congrArg some (hvalue _ t (mem_of_named ht))
  · intro i l hchain t ht hv
    obtain rfl := (hl'.lists.chain (.bucket i)).unique hchain
    rw [hvalue _ t ht]
    exact hv

/-- The old value of a tuple is gone. -/
theorem Linked.get_lost (hl : Linked h nodes) {t : Nat} (ht : named d h nodes name = some t) :
    { h with value := Function.update h.value t none }.get d name = some none := by
  have hget := (hl.setValue (Function.update h.value t none)).get (d := d) name
  have hnamed : named d { h with value := Function.update h.value t none } nodes name = some t := ht
  rw [hget, hnamed]
  simp

/-- `nvram_set` is to set a known name to another string, and `realloc` fails. -/
def LosesValue (d : Device) (h : Heap) (a : Allocs) (offset : Nat) (name value : CString) : Prop :=
  strlen value + 1 ≤ room d offset ∧
    (∃ old, h.get d name = some (some old) ∧ old ≠ value) ∧ a.realloc = false

/-- A call that fails keeps all values unless the old one was freed. -/
theorem SetStep.keeps_iff (hs : SetStep d h nodes a offset name value h' r) (hl : Linked h nodes) :
    (r ≠ 0 → h.Keeps d h') ↔ ¬LosesValue d h a offset name value := by
  -- a new name has no value to lose
  have hnone : named d h nodes name = none → ¬LosesValue d h a offset name value := by
    rintro hnew ⟨-, ⟨old, hget, -⟩, -⟩
    rw [hl.get, hnew] at hget
    cases hget
  cases hs with
  | tooLong hlong =>
    exact iff_of_true (fun _ => .refl d h) fun hlose => absurd hlose.1 (Nat.not_le.mpr hlong)
  | noTuple _ hnew => exact iff_of_true (fun _ => .refl d h) (hnone hnew)
  | noValue _ hnew =>
    refine iff_of_true (fun _ => ?_) (hnone hnew)
    -- the new tuple is in no chain
    have hne : ∀ k, ∀ t ∈ nodes k, t ≠ h.brk := fun k t ht heq => hl.not_mem_brk k (heq ▸ ht)
    refine hl.keeps ((hl.alloc name).setValue _) (fun k t ht => ?_) fun k t ht => ?_
    · exact Function.update_of_ne (hne k t ht) _ _
    · simp [Heap.alloc, hne k t ht]
  | added _ hnew => exact iff_of_true (fun hr => absurd rfl hr) (hnone hnew)
  | same _ t hold hsame =>
    refine iff_of_true (fun hr => absurd rfl hr) ?_
    rintro ⟨-, ⟨old, hget, hne⟩, -⟩
    rw [hl.get, hold] at hget
    rw [Option.bind_some, hsame] at hget
    cases hget
    exact hne rfl
  | changed _ t _ _ hrealloc =>
    refine iff_of_true (fun hr => absurd rfl hr) ?_
    rintro ⟨-, -, hfail⟩
    rw [hrealloc] at hfail
    cases hfail
  | lost hfits t hold hne hrealloc =>
    cases hv : h.value t with
    | none =>
      -- the value was lost before
      have heq : Function.update h.value t none = h.value := by rw [← hv, Function.update_eq_self]
      rw [heq]
      refine iff_of_true (fun _ => .refl d h) ?_
      rintro ⟨-, ⟨old, hget, -⟩, -⟩
      rw [hl.get, hold] at hget
      rw [Option.bind_some, hv] at hget
      cases hget
    | some old =>
      have hget : h.get d name = some (some old) := by
        rw [hl.get, hold]
        exact congrArg some hv
      refine iff_of_false (fun hkeeps => ?_) (not_not.mpr ⟨hfits, ⟨old, hget, ?_⟩, hrealloc⟩)
      · have hsame := (hkeeps (by decide)).get name
        rw [hl.get_lost hold, hget] at hsame
        cases hsame
      · rintro rfl
        exact hne hv

/-! ### Runs -/

/-- A call of the library that changes the tuples. -/
inductive Call where
  | free
  | set (a : Allocs) (name value : CString)
  | unset (name : CString)

def Call.run (d : Device) (offset : Nat) (h : Heap) : Call → Option Heap
  | .free => some h.free
  | .set a name value => (h.setWith d a offset name value).map Prod.fst
  | .unset name => (h.unset d name).map Prod.fst

/-- The tuples after a sequence of calls. -/
def runCalls (d : Device) (offset : Nat) : List Call → Heap → Option Heap
  | [], h => some h
  | c :: cs, h => do
    let h ← c.run d offset h
    runCalls d offset cs h

/-- Unsetting a value returns and leaves the lists linked. -/
theorem Linked.unset (hl : Linked h nodes) (name : CString) :
    ∃ h' r nodes', h.unset d name = some (h', r) ∧ Linked h' nodes' := by
  obtain ⟨pre, hfind, hread, hsplit⟩ := hl.find (d := d) name
  cases ht : named d h nodes name with
  | none => exact ⟨h, 0, nodes, by simp [Heap.unset, hfind, hread, ht], hl⟩
  | some t =>
    obtain ⟨post, hnodes⟩ := hsplit t ht
    obtain ⟨nodes', hl'⟩ := hl.bury hnodes
    exact ⟨_, 0, nodes', by simp [Heap.unset, hfind, hread, ht], hl'⟩

/-- So does every call. -/
theorem Linked.call (d : Device) (offset : Nat) (hl : Linked h nodes) (c : Call) :
    ∃ h' nodes', c.run d offset h = some h' ∧ Linked h' nodes' := by
  cases c with
  | free => exact ⟨_, _, rfl, linked_free h⟩
  | set a name value =>
    obtain ⟨h', r, hset, hs⟩ := hl.setWith (d := d) a offset name value
    obtain ⟨nodes', hl'⟩ := hs.linked hl
    exact ⟨h', nodes', by simp [Call.run, hset], hl'⟩
  | unset name =>
    obtain ⟨h', r, nodes', hunset, hl'⟩ := hl.unset (d := d) name
    exact ⟨h', nodes', by simp [Call.run, hunset], hl'⟩

/-- So do several calls. -/
theorem Linked.calls (d : Device) (offset : Nat) (hl : Linked h nodes) (cs : List Call) :
    ∃ h' nodes', runCalls d offset cs h = some h' ∧ Linked h' nodes' := by
  induction cs generalizing h nodes with
  | nil => exact ⟨h, nodes, rfl, hl⟩
  | cons c cs ih =>
    obtain ⟨h₁, nodes₁, hc, hl₁⟩ := hl.call d offset c
    obtain ⟨h', nodes', hrun, hl'⟩ := ih hl₁
    exact ⟨h', nodes', by simp [runCalls, hc, hrun], hl'⟩

/-- On every handle a `nvram_set` that fails keeps all variables, unless it is to change a string and
    `realloc` fails. -/
theorem setWith_keeps_iff (d : Device) (offset : Nat) (h₀ : Heap) (cs : List Call) :
    ∃ h, runCalls d offset cs h₀.free = some h ∧
      ∀ a name value, ∃ h' r, h.setWith d a offset name value = some (h', r) ∧
        ((r ≠ 0 → h.Keeps d h') ↔ ¬LosesValue d h a offset name value) := by
  obtain ⟨h, nodes, hrun, hl⟩ := (linked_free h₀).calls d offset cs
  refine ⟨h, hrun, fun a name value => ?_⟩
  obtain ⟨h', r, hset, hs⟩ := hl.setWith (d := d) a offset name value
  exact ⟨h', r, hset, hs.keeps_iff hl⟩

/-- A variable is `A`. There is no memory for `AA`, and the variable is gone. -/
theorem setWith_losesOld :
    ((runCalls lowDevice 0 [.set ⟨true, true⟩ varName (longValue 1)] (Heap.free ⟨fun _ => varName,
        fun _ => none, ⟨fun _ => none, fun _ => none⟩, 0⟩)).bind fun h =>
      (h.setWith lowDevice ⟨true, false⟩ 0 varName (longValue 2)).map fun p =>
        (h.get lowDevice varName, p.2, p.1.get lowDevice varName)) =
      some (some (some (longValue 1)), -12, some none) := by
  rfl

end HandsomeMod.Native.Nvram
