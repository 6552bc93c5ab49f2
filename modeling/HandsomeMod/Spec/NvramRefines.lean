import HandsomeMod.Native.Nvram
import HandsomeMod.Spec.NvramRoundTrip

/-!
# The chains of `libnvram` are its table

The tuples in memory represent a table: the chain of a bucket holds its tuples in order, and a tuple
is in one chain or in the dead table. Setting and unsetting variables refine what they do to the
table of a handle, so that `libnvram` is a finite map, and `nvram_getall` lists it.

A `nvram_set` counts if its value and a NUL fit into the partition from the offset of the handle on.
-/

namespace HandsomeMod.Native.Nvram

open ForStd Links

variable {d : Device} {h : Heap} {tab : Table d} {nodes : Head → List Nat} {offset : Nat}
  {name value : CString}

/-- The tuple at an address. -/
def Heap.tuple (h : Heap) (a : Nat) : CString × Option CString := (h.name a, h.value a)

/-- How a variable is stored. -/
def stored (t : Tuple) : CString × Option CString := (t.1, some t.2)

/-- The tuples at the nodes of the chains are those of the table. -/
structure Represents (h : Heap) (tab : Table d) (nodes : Head → List Nat) : Prop where
  lists : h.links.Lists nodes
  tuples : ∀ i, (tab.chain i).map stored = (nodes (.bucket i)).map h.tuple
  lt : ∀ k, ∀ a ∈ nodes k, a < h.brk

/-- The heap after `_nvram_free` represents the empty table. -/
theorem represents_free (d : Device) (h : Heap) :
    Represents h.free (Table.empty : Table d) fun _ => [] :=
  ⟨Lists.empty _, fun _ => rfl, fun _ _ ha => absurd ha List.not_mem_nil⟩

/-- No list has more nodes than were allocated. -/
theorem Represents.length_le (hr : Represents h tab nodes) (k : Head) :
    (nodes k).length ≤ h.brk := hr.lists.length_le (hr.lt k)

/-! ### Finding a tuple -/

/-- What the search for a name finds. -/
inductive Found (h : Heap) (tab : Table d) (nodes : Head → List Nat) (name : CString) : Prop where
  | absent (prev : Slot Head) (hfind : h.find d name = some prev)
    (hread : h.links.read prev = none) (hkeys : name ∉ Assoc.keys (tab.chain (bucket d name)))
  | present (pre post : List Nat) (t : Nat) (front back : List Tuple) (value : CString)
    (hfind : h.find d name = some (slotAfter (.head (.bucket (bucket d name))) pre))
    (hread : h.links.read (slotAfter (.head (.bucket (bucket d name))) pre) = some t)
    (hnodes : nodes (.bucket (bucket d name)) = pre ++ t :: post)
    (hchain : tab.chain (bucket d name) = front ++ (name, value) :: back)
    (hfront : front.map stored = pre.map h.tuple) (hback : back.map stored = post.map h.tuple)
    (htuple : h.tuple t = stored (name, value)) (hkeys : name ∉ Assoc.keys front)

/-- The names of tuples that represent variables. -/
private theorem keys_of_stored {ts : List Tuple} {l : List Nat}
    (hts : ts.map stored = l.map h.tuple) :
    Assoc.keys ts = l.map h.name := by
  have hmap := congrArg (List.map Prod.fst) hts
  simpa [List.map_map, Assoc.keys, Function.comp_def, stored, Heap.tuple] using hmap

/-- A name is found on the heap as in the table. -/
theorem Represents.found (hr : Represents h tab nodes) (name : CString) :
    Found h tab nodes name := by
  -- the search walks the bucket up to the first node with the name
  let stop : Nat → Bool := fun t => decide (h.name t = name)
  have hsplit := (List.takeWhile_append_dropWhile (p := fun a => !stop a)
    (l := nodes (.bucket (bucket d name)))).symm
  have hfind : h.find d name = some (slotAfter (.head (.bucket (bucket d name)))
      ((nodes (.bucket (bucket d name))).takeWhile fun a => !stop a)) :=
    hr.lists.find (Nat.lt_succ_of_le (hr.length_le _))
  have hskip : ∀ a ∈ (nodes (.bucket (bucket d name))).takeWhile (fun a => !stop a),
      h.name a ≠ name := by
    intro a ha
    simpa [stop] using List.mem_takeWhile_imp ha
  have hstop : ∀ t post, (nodes (.bucket (bucket d name))).dropWhile (fun a => !stop a) =
      t :: post → h.name t = name := by
    intro t post hdrop
    have hhead := List.head?_dropWhile_not (fun a => !stop a) (nodes (.bucket (bucket d name)))
    rw [hdrop] at hhead
    simpa [stop] using hhead
  generalize (nodes (.bucket (bucket d name))).takeWhile (fun a => !stop a) = pre
    at hsplit hfind hskip
  generalize (nodes (.bucket (bucket d name))).dropWhile (fun a => !stop a) = rest
    at hsplit hstop
  -- the chain of the table is split where the nodes are
  have htuples := hr.tuples (bucket d name)
  rw [hsplit, List.map_append] at htuples
  obtain ⟨front, back, hchain, hfront, hback⟩ := List.map_eq_append_iff.mp htuples
  have hkeys : name ∉ Assoc.keys front := by
    rw [keys_of_stored hfront, List.mem_map]
    rintro ⟨a, ha, hname⟩
    exact hskip a ha hname
  have hread := (hsplit ▸ hr.lists.chain (.bucket (bucket d name))).after.read_eq
  -- the walk came to the end of the bucket, or stopped at the tuple
  cases rest with
  | nil =>
    rw [List.map_nil, List.map_eq_nil_iff] at hback
    refine .absent _ hfind hread ?_
    rw [hchain, hback, List.append_nil]
    exact hkeys
  | cons t post =>
    obtain ⟨v, back', rfl, hv, hback'⟩ := List.map_eq_cons_iff.mp hback
    have hname : v.1 = name := (congrArg Prod.fst hv).trans (hstop t post rfl)
    obtain ⟨n, value⟩ := v
    obtain rfl : n = name := hname
    exact .present pre post t front back' value hfind hread hsplit hchain hfront hback' hv.symm
      hkeys

/-- `nvram_get` reads the table. -/
theorem Represents.get (hr : Represents h tab nodes) (name : CString) :
    h.get d name = some (tab.get name) := by
  cases hr.found name with
  | absent prev hfind hread hkeys =>
    rw [Heap.get, hfind, Table.get, (Assoc.lookup_eq_none name _).mpr hkeys]
    simp [hread]
  | present pre post t front back value hfind hread hnodes hchain hfront hback htuple hkeys =>
    have hlookup : tab.get name = some value := by
      rw [Table.get, Assoc.lookup_eq_some (tab.nodup _), hchain]
      simp
    have hvalue : h.value t = some value := congrArg Prod.snd htuple
    rw [Heap.get, hfind, hlookup]
    simp [hread, hvalue]

/-! ### Changing the table -/

/-- Tuples that are not written stay. -/
private theorem map_tuple_update {l : List Nat} {t : Nat} (ht : t ∉ l) (v : Option CString) :
    l.map { h with value := Function.update h.value t v }.tuple = l.map h.tuple := by
  apply List.map_congr_left
  intro a ha
  have hne : a ≠ t := fun heq => ht (heq ▸ ha)
  simp [Heap.tuple, hne]

/-- A value without room is refused. -/
private theorem realloc_eq_none (h : Heap) (t : Option Nat) (name : CString)
    (hlong : room d offset < strlen value + 1) : h.realloc d offset t name value = none := by
  unfold Heap.realloc
  rw [if_pos hlong]

/-- The value of an old tuple is written in place. -/
private theorem realloc_old (h : Heap) (t : Nat) (name : CString)
    (hfits : strlen value + 1 ≤ room d offset) :
    h.realloc d offset (some t) name value =
      some ({ h with value := Function.update h.value t (some value) }, t) := by
  unfold Heap.realloc
  rw [if_neg (Nat.not_lt.mpr hfits)]
  show (if h.value t ≠ some value then
      some ({ h with value := Function.update h.value t (some value) }, t) else some (h, t)) = _
  by_cases hsame : h.value t = some value
  · -- nothing is copied
    rw [if_neg (not_not.mpr hsame), ← hsame, Function.update_eq_self]
  · rw [if_pos hsame]

/-- A new name gets a node. -/
private theorem realloc_new (h : Heap) (name : CString) (hfits : strlen value + 1 ≤ room d offset) :
    h.realloc d offset none name value =
      some ({ (h.alloc name).1 with
        value := Function.update (h.alloc name).1.value h.brk (some value) }, h.brk) := by
  unfold Heap.realloc
  rw [if_neg (Nat.not_lt.mpr hfits)]
  simp [Heap.alloc]

/-- A value that does not fit changes nothing. -/
theorem Represents.set_refused (hr : Represents h tab nodes) (name : CString)
    (hlong : room d offset < strlen value + 1) : h.set d offset name value = some (h, -12) := by
  cases hr.found name with
  | absent prev hfind => simp [Heap.set, hfind, realloc_eq_none h _ name hlong]
  | present pre post t front back old hfind =>
    simp [Heap.set, hfind, realloc_eq_none h _ name hlong]

/-- A known name: the value of its tuple changes. -/
theorem Represents.update (hr : Represents h tab nodes) {pre post : List Nat} {t : Nat}
    {front back : List Tuple} {old : CString}
    (hnodes : nodes (.bucket (bucket d name)) = pre ++ t :: post)
    (hchain : tab.chain (bucket d name) = front ++ (name, old) :: back)
    (hfront : front.map stored = pre.map h.tuple) (hback : back.map stored = post.map h.tuple)
    (htuple : h.tuple t = stored (name, old)) (hkeys : name ∉ Assoc.keys front)
    (value : CString) :
    Represents { h with value := Function.update h.value t (some value) } (tab.set name value)
      nodes := by
  refine ⟨hr.lists, fun i => ?_, hr.lt⟩
  rw [Table.chain_set]
  split
  · rename_i hi
    rw [hi, hchain, hnodes, Assoc.put_append hkeys]
    have hnodup := hr.lists.nodup (.bucket (bucket d name))
    rw [hnodes, List.nodup_middle, List.nodup_cons, List.mem_append, not_or] at hnodup
    obtain ⟨⟨hpre, hpost⟩, -⟩ := hnodup
    have hname : h.name t = name := congrArg Prod.fst htuple
    rw [List.map_append, List.map_append, List.map_cons, List.map_cons, map_tuple_update hpre,
      map_tuple_update hpost, hfront, hback]
    simp [Heap.tuple, stored, hname]
  · rename_i hi
    -- the tuple is in another chain
    have hmem : t ∈ nodes (.bucket (bucket d name)) := by simp [hnodes]
    have hnot : t ∉ nodes (.bucket i) := fun ht =>
      hr.lists.disjoint _ _ (by simp [hi]) ht hmem
    rw [map_tuple_update hnot]
    exact hr.tuples i

/-- A new name: a new tuple is the first of its chain. -/
theorem Represents.insert (hr : Represents h tab nodes) (value : CString)
    (hkeys : name ∉ Assoc.keys (tab.chain (bucket d name))) :
    Represents ({ (h.alloc name).1 with
        value := Function.update (h.alloc name).1.value h.brk (some value) }.push
          (.bucket (bucket d name)) h.brk)
      (tab.set name value)
      (Function.update nodes (.bucket (bucket d name))
        (h.brk :: nodes (.bucket (bucket d name)))) := by
  have hnew : ∀ k, h.brk ∉ nodes k := fun k hmem => Nat.lt_irrefl _ (hr.lt k _ hmem)
  -- the new cell is on no list, so the old tuples stay
  have hold : ∀ k, (nodes k).map ({ (h.alloc name).1 with
      value := Function.update (h.alloc name).1.value h.brk (some value) }.push
        (.bucket (bucket d name)) h.brk).tuple = (nodes k).map h.tuple := by
    intro k
    apply List.map_congr_left
    intro a ha
    have hne : a ≠ h.brk := fun heq => hnew k (heq ▸ ha)
    simp [Heap.tuple, Heap.push, Heap.alloc, hne]
  refine ⟨hr.lists.push hnew _, fun i => ?_, fun k a ha => ?_⟩
  · rw [Table.chain_set]
    -- only the bucket of the name gets the new tuple, in front
    by_cases hi : i = bucket d name
    · rw [if_pos hi, hi, Function.update_self, List.map_cons, hold, ← hr.tuples, Assoc.put,
        if_neg hkeys, List.map_cons]
      simp [Heap.tuple, Heap.push, Heap.alloc, stored]
    · rw [if_neg hi, Function.update_of_ne (by simp [hi]), hold]
      exact hr.tuples i
  · show a < h.brk + 1
    by_cases hk : k = .bucket (bucket d name)
    · rw [hk, Function.update_self, List.mem_cons] at ha
      obtain rfl | ha := ha
      · exact Nat.lt_succ_self _
      · exact Nat.lt_succ_of_lt (hr.lt _ a ha)
    · rw [Function.update_of_ne hk] at ha
      exact Nat.lt_succ_of_lt (hr.lt _ a ha)

/-- `nvram_set` of a value that fits is `set` of the table. -/
theorem Represents.set (hr : Represents h tab nodes) (name : CString)
    (hfits : strlen value + 1 ≤ room d offset) :
    ∃ h' nodes', h.set d offset name value = some (h', 0) ∧
      Represents h' (tab.set name value) nodes' := by
  cases hr.found name with
  | absent prev hfind hread hkeys =>
    refine ⟨_, _, ?_, hr.insert value hkeys⟩
    simp [Heap.set, hfind, hread, realloc_new h name hfits]
  | present pre post t front back old hfind hread hnodes hchain hfront hback htuple hkeys =>
    refine ⟨_, _, ?_, hr.update hnodes hchain hfront hback htuple hkeys value⟩
    simp [Heap.set, hfind, hread, realloc_old h t name hfits]

/-- A tuple that moves to the dead table. -/
theorem Represents.bury (hr : Represents h tab nodes) {pre post : List Nat} {t : Nat}
    {front back : List Tuple} {old : CString}
    (hnodes : nodes (.bucket (bucket d name)) = pre ++ t :: post)
    (hchain : tab.chain (bucket d name) = front ++ (name, old) :: back)
    (hfront : front.map stored = pre.map h.tuple) (hback : back.map stored = post.map h.tuple)
    (hkeys : name ∉ Assoc.keys front) :
    ∃ nodes', Represents (h.bury (slotAfter (.head (.bucket (bucket d name))) pre) t)
      (tab.unset name) nodes' := by
  have hout := hr.lists.unlink hnodes
  have hnodup := hr.lists.nodup (.bucket (bucket d name))
  rw [hnodes, List.nodup_middle, List.nodup_cons] at hnodup
  have hmem : t ∈ nodes (.bucket (bucket d name)) := by simp [hnodes]
  -- the tuple is in no chain now
  have hnot : ∀ k, t ∉ Function.update nodes (.bucket (bucket d name)) (pre ++ post) k := by
    intro k
    by_cases hk : k = .bucket (bucket d name)
    · rw [hk, Function.update_self]
      exact hnodup.1
    · rw [Function.update_of_ne hk]
      exact fun ht => hr.lists.disjoint _ _ hk ht hmem
  -- the nodes left in the chains are among those allocated
  have hlt : ∀ k, ∀ a ∈ Function.update nodes (.bucket (bucket d name)) (pre ++ post) k,
      a < h.brk := by
    intro k a ha
    by_cases hk : k = .bucket (bucket d name)
    · rw [hk, Function.update_self] at ha
      refine hr.lt (.bucket (bucket d name)) a ?_
      rw [hnodes, List.mem_append, List.mem_cons]
      exact (List.mem_append.mp ha).imp_right .inr
    · rw [Function.update_of_ne hk] at ha
      exact hr.lt k a ha
  refine ⟨_, hout.push hnot .dead, fun i => ?_, fun k a ha => ?_⟩
  -- the buckets hold the table without the name, the dead list one tuple more
  · rw [Function.update_of_ne (by simp), Table.chain_unset]
    by_cases hi : i = bucket d name
    · rw [if_pos hi, hi, Function.update_self, hchain, Assoc.del_append hkeys, List.map_append,
        List.map_append, hfront, hback]
      rfl
    · rw [if_neg hi, Function.update_of_ne (by simp [hi])]
      exact hr.tuples i
  · show a < h.brk
    by_cases hk : k = .dead
    · rw [hk, Function.update_self, List.mem_cons] at ha
      obtain rfl | ha := ha
      · exact hr.lt _ _ hmem
      · exact hlt _ a ha
    · rw [Function.update_of_ne hk] at ha
      exact hlt k a ha

/-- `nvram_unset` is `unset` of the table. -/
theorem Represents.unset (hr : Represents h tab nodes) (name : CString) :
    ∃ h' nodes', h.unset d name = some (h', 0) ∧ Represents h' (tab.unset name) nodes' := by
  -- the tuple is not there, or it is taken from its chain
  cases hr.found name with
  | absent prev hfind hread hkeys =>
    refine ⟨h, nodes, by simp [Heap.unset, hfind, hread], hr.lists, fun i => ?_, hr.lt⟩
    rw [Table.chain_unset, Assoc.del_of_notMem hkeys]
    split
    · rename_i hi
      rw [← hi]
      exact hr.tuples i
    · exact hr.tuples i
  | present pre post t front back old hfind hread hnodes hchain hfront hback htuple hkeys =>
    obtain ⟨nodes', hr'⟩ := hr.bury hnodes hchain hfront hback hkeys
    exact ⟨_, nodes', by simp [Heap.unset, hfind, hread], hr'⟩

/-! ### The list of all tuples -/

/-- All nodes of a list are given back. -/
private theorem getChain_eq {slot : Slot Head} {l : List Nat} (hl : h.links.Chain slot l)
    {fuel : Nat}
    (hfuel : l.length ≤ fuel) (acc : List (CString × Option CString)) :
    h.getChain fuel (h.links.read slot) acc = some ((l.map h.tuple).reverse ++ acc) := by
  induction l generalizing slot fuel acc with
  | nil =>
    rw [hl.read_eq]
    cases fuel <;> rfl
  | cons a l ih =>
    obtain ⟨fuel, rfl⟩ := Nat.exists_eq_succ_of_ne_zero (Nat.ne_of_gt (Nat.zero_lt_of_lt hfuel))
    rw [hl.1]
    show h.getChain fuel (h.links.read (.next a)) (h.tuple a :: acc) = _
    rw [ih hl.2 (Nat.le_of_succ_le_succ hfuel)]
    simp

/-- `nvram_getall` lists the tuples of the table, the last one first. -/
theorem Represents.getall (hr : Represents h tab nodes) :
    h.getall = some (tab.tuples.map stored).reverse := by
  have hfold : ∀ (is : List Nat) (acc : List (CString × Option CString)),
      is.foldlM (fun l i => h.getChain h.brk (h.links.head (.bucket i)) l) acc =
        some (((is.flatMap tab.chain).map stored).reverse ++ acc) := by
    intro is
    induction is with
    | nil => simp
    | cons i is ih =>
      intro acc
      -- a chain is walked from its head, so its tuples come out reversed
      have hchain : h.getChain h.brk (h.links.head (.bucket i)) acc =
          some (((tab.chain i).map stored).reverse ++ acc) := by
        rw [hr.tuples]
        exact getChain_eq (hr.lists.chain (.bucket i)) (hr.length_le _) acc
      rw [List.foldlM_cons, hchain]
      show is.foldlM _ _ = _
      rw [ih]
      simp
  rw [Heap.getall, hfold, List.append_nil]
  rfl

/-! ### Runs -/

/-- The call on the tuples of a handle with this `offset`: the tuples afterwards and what the call
    returns. -/
def Op.runHeap (d : Device) (offset : Nat) (h : Heap) : Op → Option (Heap × Int)
  | .set name value => h.set d offset name value
  | .unset name => h.unset d name

/-- The tuples after a sequence of calls. -/
def runHeap (d : Device) (offset : Nat) : List Op → Heap → Option Heap
  | [], h => some h
  | op :: ops, h => do
    let (h, _) ← op.runHeap d offset h
    runHeap d offset ops h

/-- `nvram_set` refuses the value. -/
def Op.Refused (d : Device) (offset : Nat) : Op → Prop
  | .set _ value => room d offset < strlen value + 1
  | .unset _ => False

/-- A call that is not refused does to the tuples what it does to the table. -/
theorem Represents.op {hd : Handle d} (hr : Represents h hd.table nodes) (op : Op)
    (hop : ¬op.Refused d hd.offset) :
    ∃ h' nodes', op.runHeap d hd.offset h = some (h', 0) ∧
      Represents h' (op.run hd).table nodes' := by
  cases op with
  | set name value =>
    have hfits : ¬room d hd.offset < strlen value + 1 := hop
    rw [Op.run, nvramSet, if_neg hfits]
    exact hr.set name (Nat.not_lt.mp hfits)
  | unset name => exact hr.unset name

/-- A call that is refused changes nothing in the table. -/
theorem run_of_refused {hd : Handle d} {op : Op} (hop : op.Refused d hd.offset) :
    op.run hd = hd := by
  cases op with
  | set name value =>
    have hlong : room d hd.offset < strlen value + 1 := hop
    rw [Op.run, nvramSet, if_pos hlong]
  | unset name => exact hop.elim

/-- A call that is refused returns -ENOMEM and changes nothing. -/
theorem Represents.refused {op : Op} (hr : Represents h tab nodes) (hop : op.Refused d offset) :
    op.runHeap d offset h = some (h, -12) := by
  cases op with
  | set name value => exact hr.set_refused name hop
  | unset name => exact hop.elim

/-- The tuples in memory refine the handle with its table. -/
theorem Represents.run {hd : Handle d} (hr : Represents h hd.table nodes) (ops : List Op) :
    ∃ h' nodes', runHeap d hd.offset ops h = some h' ∧
      Represents h' (runOps hd ops).table nodes' := by
  induction ops generalizing h nodes hd with
  | nil => exact ⟨h, nodes, rfl, hr⟩
  | cons op ops ih =>
    have hoffset : (op.run hd).offset = hd.offset := (runOps_frame hd [op]).2
    -- a refused operation leaves both as they were
    by_cases hop : op.Refused d hd.offset
    · obtain ⟨h', nodes', hrun, hr'⟩ := ih hr
      refine ⟨h', nodes', ?_, ?_⟩
      · simp [runHeap, hr.refused hop, hrun]
      · rw [runOps, List.foldl_cons, run_of_refused hop]
        exact hr'
    · obtain ⟨h₁, nodes₁, hstep, hr₁⟩ := hr.op op hop
      obtain ⟨h', nodes', hrun, hr'⟩ := ih hr₁
      rw [hoffset] at hrun
      exact ⟨h', nodes', by simp [runHeap, hstep, hrun], hr'⟩

/-! ### The finite map -/

/-- The last call that counts for a name sets it to this value. -/
def LastSet (d : Device) (offset : Nat) (ops : List Op) (name value : CString) : Prop :=
  ∃ before after, ops = before ++ .set name value :: after ∧
    ¬(Op.set name value).Refused d offset ∧
    ∀ op ∈ after, op.name = name → op.Refused d offset

/-- Without a call nothing was set. -/
private theorem not_lastSet_nil : ¬LastSet d offset [] name value := by
  rintro ⟨before, after, heq, -⟩
  simp at heq

/-- Whether a call is the last one that counts, or one in front of it. -/
private theorem lastSet_concat {ops : List Op} {op : Op} :
    LastSet d offset (ops ++ [op]) name value ↔
      (op = .set name value ∧ ¬op.Refused d offset) ∨
        ((op.name = name → op.Refused d offset) ∧ LastSet d offset ops name value) := by
  constructor
  · rintro ⟨before, after, heq, hfits, hafter⟩
    induction after using List.reverseRecOn with
    -- the set that counts is the last call itself
    | nil =>
      obtain ⟨-, heq⟩ := List.append_inj' heq rfl
      obtain rfl := List.singleton_inj.mp heq
      exact .inl ⟨rfl, hfits⟩
    -- it is an earlier call, and the last one leaves the name
    | append_singleton after last =>
      rw [← List.cons_append, ← List.append_assoc] at heq
      obtain ⟨hops, hlast⟩ := List.append_inj' heq rfl
      obtain rfl := List.singleton_inj.mp hlast
      refine .inr ⟨hafter op (by simp), before, after, hops, hfits, fun o ho => ?_⟩
      exact hafter o (List.mem_append_left _ ho)
  · rintro (⟨rfl, hfits⟩ | ⟨hop, before, after, rfl, hfits, hafter⟩)
    · exact ⟨ops, [], rfl, hfits, by simp⟩
    · refine ⟨before, after ++ [op], by simp, hfits, fun o ho => ?_⟩
      obtain ho | ho := List.mem_append.mp ho
      · exact hafter o ho
      · obtain rfl := List.mem_singleton.mp ho
        exact hop

/-- A call changes its name only. -/
theorem get_run_of_ne (hd : Handle d) {op : Op} (hne : op.name ≠ name) :
    (op.run hd).table.get name = hd.table.get name := by
  cases op with
  | set name' value =>
    rw [Op.run, nvramSet]
    split
    · rfl
    · exact (Table.get_set ..).trans (if_neg (Ne.symm hne))
  | unset name' => exact (Table.get_unset ..).trans (if_neg (Ne.symm hne))

/-- A handle that was opened without variables has the last value of each. -/
theorem get_runOps_iff {hd : Handle d} (hempty : hd.table = .empty) (ops : List Op)
    (name value : CString) :
    (runOps hd ops).table.get name = some value ↔ LastSet d hd.offset ops name value := by
  -- on the last call: refused, on this name, or on another one
  induction ops using List.reverseRecOn with
  | nil =>
    rw [runOps, List.foldl_nil, hempty, Table.get_empty]
    exact iff_of_false (by simp) not_lastSet_nil
  | append_singleton ops op ih =>
    rw [lastSet_concat, ← ih, runOps, List.foldl_concat, ← runOps]
    have hoffset := (runOps_frame hd ops).2
    by_cases hop : op.Refused d hd.offset
    · rw [run_of_refused (by rwa [hoffset])]
      simp [hop]
    · by_cases hne : op.name = name
      · cases op with
        | set name' value' =>
          obtain rfl : name' = name := hne
          have hfits : ¬room d hd.offset < strlen value' + 1 := hop
          rw [Op.run, nvramSet, hoffset, if_neg hfits, Table.get_set]
          simp [hop, Op.name]
        | unset name' =>
          obtain rfl : name' = name := hne
          rw [Op.run, nvramUnset, Table.get_unset]
          simp [Op.Refused, Op.name]
      · rw [get_run_of_ne _ hne]
        constructor
        · exact fun hget => .inr ⟨fun h => absurd h hne, hget⟩
        · rintro (⟨rfl, -⟩ | ⟨-, hget⟩)
          · exact absurd rfl hne
          · exact hget

/-- The tuples are the finite map `m`: `nvram_get` looks names up, no two tuples of the chains have
    one name, and `nvram_getall` lists the variables once each. -/
structure Heap.IsMap (d : Device) (h : Heap) (m : CString → Option CString) : Prop where
  get : ∀ name, h.get d name = some (m name)
  once : ∃ nodes : Nat → List Nat, (∀ i, h.links.Chain (.head (.bucket i)) (nodes i)) ∧
    ((List.range numBuckets).flatMap fun i => (nodes i).map h.name).Nodup
  getall : ∃ l, h.getall = some l ∧ (l.map Prod.fst).Nodup ∧
    ∀ name v, (name, v) ∈ l ↔ ∃ value, v = some value ∧ m name = some value

/-- A heap that represents a table is a map. -/
theorem Represents.isMap (hr : Represents h tab nodes) : h.IsMap d tab.get := by
  refine ⟨hr.get, ⟨fun i => nodes (.bucket i), fun i => hr.lists.chain _, ?_⟩,
    _, hr.getall, ?_, fun name v => ?_⟩
  · have hnodup := tab.nodup_keys_tuples
    rw [Assoc.keys, Table.tuples, List.map_flatMap] at hnodup
    -- the names in the chain are those of the tuples it stands for
    have hnames : ∀ i, (tab.chain i).map Prod.fst = (nodes (.bucket i)).map h.name := fun i =>
      keys_of_stored (hr.tuples i)
    simpa only [hnames] using hnodup
  · rw [List.map_reverse, List.map_map, List.nodup_reverse]
    exact tab.nodup_keys_tuples
  · rw [List.mem_reverse, List.mem_map]
    constructor
    · rintro ⟨t, ht, heq⟩
      cases heq
      exact ⟨t.2, rfl, (tab.mem_tuples t).mp ht⟩
    · rintro ⟨value, rfl, hget⟩
      exact ⟨(name, value), (tab.mem_tuples _).mpr hget, rfl⟩

/-- After any sequence of calls `libnvram` is the finite map of the last sets. One more call is
    refused with -ENOMEM and changes nothing, or leaves every other name alone. -/
theorem runHeap_isMap (d : Device) (offset : Nat) (h₀ : Heap) (ops : List Op) :
    ∃ h m, runHeap d offset ops h₀.free = some h ∧ h.IsMap d m ∧
      (∀ name value, m name = some value ↔ LastSet d offset ops name value) ∧
      ∀ op : Op, (op.Refused d offset → op.runHeap d offset h = some (h, -12)) ∧
        (¬op.Refused d offset → ∃ h', op.runHeap d offset h = some (h', 0) ∧
          ∀ name, name ≠ op.name → h'.get d name = h.get d name) := by
  let hd : Handle d := ⟨fun _ => 0, offset, .empty⟩
  have hfree : Represents h₀.free hd.table fun _ => [] := represents_free d h₀
  obtain ⟨h, nodes, hrun, hr⟩ := hfree.run ops
  have hoffset : (runOps hd ops).offset = offset := (runOps_frame hd ops).2
  refine ⟨h, _, hrun, hr.isMap, get_runOps_iff rfl ops, fun op => ⟨hr.refused, fun hop => ?_⟩⟩
  rw [← hoffset] at hop
  obtain ⟨h', nodes', hstep, hr'⟩ := hr.op op hop
  rw [hoffset] at hstep
  refine ⟨h', hstep, fun name hne => ?_⟩
  rw [hr'.get, hr.get, get_run_of_ne _ (Ne.symm hne)]

/-- A partition of 64 KiB. -/
def wideDevice : Device := { lowDevice with partSize := 0x10000, partSize_lt := by decide }

/-- The offset of the handle counts: a value that is shorter than the partition is not set. -/
theorem shortValue_refused :
    strlen (longValue 0xc000) < wideDevice.partSize ∧
      (runHeap wideDevice 0x4000 [.set varName (longValue 0xc000)] (Heap.free ⟨fun _ => varName,
        fun _ => none, ⟨fun _ => none, fun _ => none⟩, 0⟩)).bind (·.get wideDevice varName) =
        some none := by
  have hlen : strlen (longValue 0xc000) = 0xc000 := List.length_replicate
  refine ⟨by rw [hlen]; decide, ?_⟩
  have hlong : room wideDevice 0x4000 < strlen (longValue 0xc000) + 1 := by
    rw [hlen]
    decide
  have hr := represents_free wideDevice
    ⟨fun _ => varName, fun _ => none, ⟨fun _ => none, fun _ => none⟩, 0⟩
  rw [runHeap, Op.runHeap, hr.set_refused varName hlong]
  exact hr.get varName

end HandsomeMod.Native.Nvram


