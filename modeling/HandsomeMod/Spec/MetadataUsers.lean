import HandsomeMod.Native.Metadata

/-!
# Users and groups of packages

What the tables of the users and the groups are after a file was read, for any order of the specs; and
what it means for the next file that `clear_packages` does not forget the ids.
-/

namespace HandsomeMod.Native.Metadata

open ForStd PackageMetadata

/-! ### Specs -/

/-- A spec gives a name an id, or none. -/
def Spec.Says (s : Spec) (kind : Kind) (name : Text) (id : Option Text) : Prop :=
  s.kind = kind ∧ matchSpec s.spec = some (name, id)

/-- An id is canonical and has 16 bits. -/
def IdValid (id : Option Text) : Prop := ∀ i, id = some i → isPositive i = true ∧ decimal i < 65536

/-- Specs that go together, in any order. -/
structure Consistent (l : List Spec) : Prop where
  valid : ∀ s ∈ l, ∃ name id, matchSpec s.spec = some (name, id) ∧ IdValid id
  oneId : ∀ s ∈ l, ∀ s' ∈ l, ∀ kind name id id', s.Says kind name id → s'.Says kind name id' → id = id'
  oneName : ∀ s ∈ l, ∀ s' ∈ l, ∀ kind name name' i, s.Says kind name (some i) →
    s'.Says kind name' (some i) → name = name'

/-- The tables hold what the specs say. -/
structure Represents (l : List Spec) (tables : Kind → Ids) : Prop where
  names : ∀ kind name id, ((tables kind).names name).map (·.id) = some id ↔ ∃ s ∈ l, s.Says kind name id
  ids : ∀ kind name i, ((tables kind).ids i).map (·.name) = some name ↔
    ∃ s ∈ l, s.Says kind name (some i)

/-- No specs go together. -/
theorem consistent_nil : Consistent [] := by constructor <;> simp

/-- The empty tables represent no specs. -/
theorem represents_nil : Represents [] State.init.tables where
  names _ _ _ := by simp [State.init]
  ids _ _ _ := by simp [State.init]

/-- The digits of an id. -/
private theorem isDigit_of_matchSpec {spec name i : Text} (h : matchSpec spec = some (name, some i))
    :
    ∀ c ∈ i, isDigit c = true := by
  rw [matchSpec] at h
  split at h
  · cases h
  · split at h
    · rename_i hid
      obtain ⟨-, hi⟩ := Prod.mk.inj (Option.some.inj h)
      rw [← Option.some.inj hi]
      exact List.all_eq_true.mp hid.2.2
    · cases h

/-- Two ids of the same value are the same text. -/
private theorem eq_of_idValue {spec spec' name name' : Text} {id id' : Option Text}
    (h : matchSpec spec = some (name, id)) (h' : matchSpec spec' = some (name', id')) (hid : IdValid id)
    (hid' : IdValid id') (heq : idValue id = idValue id') : id = id' := by
  cases id with
  | none =>
    cases id' with
    | none => rfl
    | some i' =>
      simp only [idValue] at heq
      omega
  | some i =>
    cases id' with
    | none =>
      simp only [idValue] at heq
      omega
    | some i' =>
      -- a leading zero would give two texts of one number; `isPositive` refuses it
      have hhead {i : Text} (hpos : isPositive i = true) : i.head? ≠ some 0x30 := by
        intro hhead
        rw [isPositive, hhead] at hpos
        cases hpos
      have hdec : decimal i = decimal i' := Int.ofNat.inj heq
      rw [eq_of_decimal_eq (isDigit_of_matchSpec h) (isDigit_of_matchSpec h') (hhead (hid i rfl).1)
        (hhead (hid' i' rfl).1) hdec]

/-! ### One call -/

/-- A call returns 1. -/
structure Accepts (t : Ids) (name : Text) (id : Option Text) : Prop where
  valid : IdValid id
  free : ∀ i, id = some i → ∀ e, t.ids i = some e → e.name = name
  same : ∀ e, t.names name = some e → idValue e.id = idValue id

/-- The tables after such a call. -/
def enter (makefile : Option Text) (t : Ids) (name : Text) (id : Option Text) : Ids where
  names := if (t.names name).isSome then t.names else Function.update t.names name (some ⟨id, makefile⟩)
  ids :=
    match id with
    | none => t.ids
    | some i => if (t.ids i).isSome then t.ids else Function.update t.ids i (some ⟨name, makefile⟩)

section Call

variable {makefile : Option Text} {typename spec name : Text} {t : Ids} {id : Option Text}

/-- A spec that the tables accept is entered. -/
private theorem parsePackageMetadataUsergroup_of_accepts (hspec : matchSpec spec = some (name, id))
    (h : Accepts t name id) :
    parsePackageMetadataUsergroup makefile typename t spec = (enter makefile t name id, none) := by
  -- an id is free, or taken by the same name
  have hid : takeId makefile typename t.ids name id = .ok (enter makefile t name id).ids := by
    cases id with
    | none => rfl
    | some i =>
      obtain ⟨hpos, hlt⟩ := h.valid i rfl
      simp only [takeId, if_pos hpos, if_neg (Nat.not_le.mpr hlt), enter]
      cases he : t.ids i with
      | none => rfl
      | some e => simp [h.free i rfl e he]
  -- a name has no other id
  have hname : takeName makefile typename t.names name id = .ok (enter makefile t name id).names := by
    simp only [takeName, enter]
    cases he : t.names name with
    | none => rfl
    | some e => simp [h.same e he]
  simp only [parsePackageMetadataUsergroup, hspec, hid, hname]

/-- Any other call returns 0, and enters no name. -/
private theorem parsePackageMetadataUsergroup_of_not (makefile : Option Text) (typename : Text)
    (t : Ids)
    (h : ∀ name id, matchSpec spec = some (name, id) → ¬Accepts t name id) :
    ∃ t' warning, parsePackageMetadataUsergroup makefile typename t spec = (t', some warning) ∧
      t'.names = t.names := by
  rw [parsePackageMetadataUsergroup]
  cases hspec : matchSpec spec with
  | none => exact ⟨t, _, rfl, rfl⟩
  | some p =>
    obtain ⟨name, id⟩ := p
    have hnot := h name id hspec
    -- a warning comes from the id table or from the name table; with neither the spec is accepted
    cases hid : takeId makefile typename t.ids name id with
    | error warning => exact ⟨t, warning, by simp only [hid], rfl⟩
    | ok ids =>
      cases hname : takeName makefile typename t.names name id with
      | error warning => exact ⟨{ t with ids }, warning, by simp only [hid, hname], rfl⟩
      | ok names =>
        -- both tables took it, so each part of acceptance can be read off
        refine absurd ⟨?_, ?_, ?_⟩ hnot
        · rintro i rfl
          simp only [takeId] at hid
          split at hid
          · rename_i hpos
            split at hid
            · cases hid
            · rename_i hlt
              exact ⟨hpos, Nat.not_le.mp hlt⟩
          · cases hid
        · rintro i rfl e he
          by_contra hne
          simp only [takeId, he, if_pos hne] at hid
          split at hid
          · split at hid <;> cases hid
          · cases hid
        · intro e he
          by_contra hne
          simp only [takeName, he, if_pos hne] at hname
          cases hname

end Call

/-! ### One spec after the others -/

section Step

variable {l : List Spec} {tables : Kind → Ids} {s : Spec}

/-- The first specs of a list that goes together. -/
theorem Consistent.of_append {l' : List Spec} (h : Consistent (l ++ l')) : Consistent l where
  valid s hs := h.valid s (List.mem_append_left _ hs)
  oneId s hs s' hs' := h.oneId s (List.mem_append_left _ hs) s' (List.mem_append_left _ hs')
  oneName s hs s' hs' := h.oneName s (List.mem_append_left _ hs) s' (List.mem_append_left _ hs')

/-- A spec is accepted exactly if it goes together with those before it. -/
private theorem accepts_iff (hl : Consistent l) (hr : Represents l tables) :
    (∃ name id, matchSpec s.spec = some (name, id) ∧ Accepts (tables s.kind) name id) ↔
      Consistent (l ++ [s]) := by
  constructor
  · rintro ⟨name, id, hspec, hacc⟩
    -- the new spec says one thing only
    have hgives {kind name' id'} (h : s.Says kind name' id') : kind = s.kind ∧ name' = name ∧ id' = id := by
      obtain ⟨rfl, h⟩ := h
      obtain ⟨rfl, rfl⟩ : name = name' ∧ id = id' := by simpa [hspec] using h
      exact ⟨rfl, rfl, rfl⟩
    -- A spec of the list and the new one, for the one order; the other one is the same.
    have hid {s' kind name' id₁ id₂} (hs' : s' ∈ l) (h₁ : s'.Says kind name' id₁) (h₂ : s.Says kind name' id₂) :
        id₁ = id₂ := by
      obtain ⟨rfl, rfl, rfl⟩ := hgives h₂
      obtain ⟨e, he, rfl⟩ := Option.map_eq_some_iff.mp ((hr.names _ _ _).mpr ⟨s', hs', h₁⟩)
      obtain ⟨name'', id'', hspec', hvalid⟩ := hl.valid s' hs'
      obtain ⟨rfl, rfl⟩ : name'' = name' ∧ id'' = e.id := by simpa [hspec'] using h₁.2
      exact eq_of_idValue hspec' hspec hvalid hacc.valid (hacc.same e he)
    have hname {s' kind name₁ name₂ i} (hs' : s' ∈ l) (h₁ : s'.Says kind name₁ (some i))
        (h₂ : s.Says kind name₂ (some i)) : name₁ = name₂ := by
      obtain ⟨rfl, rfl, rfl⟩ := hgives h₂
      obtain ⟨e, he, rfl⟩ := Option.map_eq_some_iff.mp ((hr.ids _ _ _).mpr ⟨s', hs', h₁⟩)
      exact hacc.free i rfl e he
    constructor
    · intro s' hs'
      rcases List.mem_append.mp hs' with hs' | hs'
      · exact hl.valid s' hs'
      · rw [List.mem_singleton.mp hs']
        exact ⟨name, id, hspec, hacc.valid⟩
    -- two specs of one name: both old, one of them new, or the new one twice
    · intro s₁ hs₁ s₂ hs₂ kind name' id₁ id₂ h₁ h₂
      rw [List.mem_append, List.mem_singleton] at hs₁ hs₂
      rcases hs₁ with hs₁ | rfl
      · rcases hs₂ with hs₂ | rfl
        · exact hl.oneId s₁ hs₁ s₂ hs₂ kind name' id₁ id₂ h₁ h₂
        · exact hid hs₁ h₁ h₂
      · rcases hs₂ with hs₂ | rfl
        · exact (hid hs₂ h₂ h₁).symm
        · exact (hgives h₁).2.2.trans (hgives h₂).2.2.symm
    -- the same four cases for two specs of one id
    · intro s₁ hs₁ s₂ hs₂ kind name₁ name₂ i h₁ h₂
      rw [List.mem_append, List.mem_singleton] at hs₁ hs₂
      rcases hs₁ with hs₁ | rfl
      · rcases hs₂ with hs₂ | rfl
        · exact hl.oneName s₁ hs₁ s₂ hs₂ kind name₁ name₂ i h₁ h₂
        · exact hname hs₁ h₁ h₂
      · rcases hs₂ with hs₂ | rfl
        · exact (hname hs₂ h₂ h₁).symm
        · exact (hgives h₁).2.1.trans (hgives h₂).2.1.symm
  · intro h
    have hmem : s ∈ l ++ [s] := List.mem_append_right _ List.mem_cons_self
    obtain ⟨name, id, hspec, hvalid⟩ := h.valid s hmem
    refine ⟨name, id, hspec, hvalid, ?_, ?_⟩
    · rintro i rfl e he
      obtain ⟨s', hs', hgives⟩ := (hr.ids s.kind e.name i).mp (by rw [he]; rfl)
      exact h.oneName s' (List.mem_append_left _ hs') s hmem s.kind e.name name i hgives ⟨rfl, hspec⟩
    · intro e he
      obtain ⟨s', hs', hgives⟩ := (hr.names s.kind name e.id).mp (by rw [he]; rfl)
      rw [h.oneId s' (List.mem_append_left _ hs') s hmem s.kind name e.id id hgives ⟨rfl, hspec⟩]

/-- After an accepted spec, the tables hold what it says as well. -/
theorem Represents.append (hr : Represents l tables) {name : Text} {id : Option Text}
    (hspec : matchSpec s.spec = some (name, id)) (hacc : Accepts (tables s.kind) name id)
    (h : Consistent (l ++ [s])) (makefile : Option Text) :
    Represents (l ++ [s]) (Function.update tables s.kind (enter makefile (tables s.kind) name id)) := by
  have hmem : s ∈ l ++ [s] := List.mem_append_right _ List.mem_cons_self
  -- what is looked up afterwards is what an old spec says, or what the new one says
  have hgives {kind name' id'} : s.Says kind name' id' ↔ s.kind = kind ∧ name = name' ∧ id = id' := by
    simp [Spec.Says, hspec]
  constructor
  · intro kind name' id'
    simp only [List.mem_append, List.mem_singleton, or_and_right, exists_or, exists_eq_left, hgives,
      ← hr.names kind name' id']
    by_cases hkind : s.kind = kind
    · subst hkind
      simp only [Function.update_self, enter]
      cases he : (tables s.kind).names name with
      | none =>
        by_cases hname : name = name'
        · subst hname
          simp [he]
        · simp [Function.update_of_ne (Ne.symm hname), hname]
      | some e =>
        -- the name had the same id before
        obtain ⟨s', hs', hgives'⟩ := (hr.names s.kind name e.id).mp (by rw [he]; rfl)
        have hid : e.id = id :=
          h.oneId s' (List.mem_append_left _ hs') s hmem s.kind name e.id id hgives' ⟨rfl, hspec⟩
        simp only [Option.isSome_some, if_true, true_and]
        constructor
        · exact Or.inl
        · rintro (h | ⟨rfl, rfl⟩)
          · exact h
          · rw [he, Option.map_some, hid]
    · rw [Function.update_of_ne (Ne.symm hkind)]
      simp [hkind]
  · intro kind name' i
    simp only [List.mem_append, List.mem_singleton, or_and_right, exists_or, exists_eq_left, hgives,
      ← hr.ids kind name' i]
    by_cases hkind : s.kind = kind
    · subst hkind
      simp only [Function.update_self, enter]
      -- without an id the table of ids is left alone
      cases id with
      | none => simp
      | some i' =>
        dsimp only
        cases he : (tables s.kind).ids i' with
        | none =>
          by_cases hi : i' = i
          · subst hi
            simp [he]
          · simp [Function.update_of_ne (Ne.symm hi), hi]
        | some e =>
          have hname := hacc.free i' rfl e he
          simp only [Option.isSome_some, if_true, true_and]
          constructor
          · exact Or.inl
          · rintro (h | ⟨rfl, hi⟩)
            · exact h
            · obtain rfl := Option.some.inj hi
              rw [he, Option.map_some, hname]
    · rw [Function.update_of_ne (Ne.symm hkind)]
      simp [hkind]

end Step

/-- The calls of a list: all return 1 exactly if the specs go together with those before. -/
private theorem checkSpecs_iff {l : List Spec} {tables : Kind → Ids} (hl : Consistent l)
    (hr : Represents l tables)
    (l' : List Spec) :
    ((checkSpecs tables l').2 = none ↔ Consistent (l ++ l')) ∧
      (Consistent (l ++ l') → Represents (l ++ l') (checkSpecs tables l').1) := by
  -- induction on the specs to come; the accepted ones move over to the list `tables` stands for
  induction l' generalizing l tables with
  | nil =>
    rw [List.append_nil]
    exact ⟨iff_of_true rfl hl, fun _ => hr⟩
  | cons s l' ih =>
    have hsplit : l ++ s :: l' = l ++ [s] ++ l' := (List.append_cons l s l')
    rw [hsplit]
    by_cases hs : ∃ name id, matchSpec s.spec = some (name, id) ∧ Accepts (tables s.kind) name id
    · obtain ⟨name, id, hspec, hacc⟩ := hs
      have hl' := (accepts_iff hl hr).mp ⟨name, id, hspec, hacc⟩
      simp only [checkSpecs, parsePackageMetadataUsergroup_of_accepts hspec hacc]
      exact ih hl' (hr.append hspec hacc hl' s.makefile)
    -- the first refused spec ends the run, and no later one can mend the list
    · have hnot : ¬Consistent (l ++ [s] ++ l') := fun h => hs ((accepts_iff hl hr).mpr h.of_append)
      obtain ⟨t', warning, hcall, -⟩ := parsePackageMetadataUsergroup_of_not s.makefile s.kind.typename
        (tables s.kind)
        fun name id hspec hacc => hs ⟨name, id, hspec, hacc⟩
      simp only [checkSpecs, hcall]
      exact ⟨iff_of_false (by simp) hnot, fun h => absurd h hnot⟩

/-- A second part is checked only if the first one had no error. -/
private theorem checkSpecs_append (tables : Kind → Ids) (l l' : List Spec) :
    checkSpecs tables (l ++ l') =
      if (checkSpecs tables l).2 = none then checkSpecs (checkSpecs tables l).1 l'
      else checkSpecs tables l := by
  induction l generalizing tables with
  | nil => rfl
  | cons s l ih =>
    rw [List.cons_append, checkSpecs, checkSpecs]
    split
    · simp
    · exact ih _

/-! ### Files -/

/-- The specs of lines, as long as none is refused. -/
def specsOf (ignore : Text → Bool) (lines : List Text) (p : Parser) : List Spec :=
  match lines with
  | [] => []
  | line :: lines =>
    (turn ignore (chomp line) lines p).specs ++
      specsOf ignore (turn ignore (chomp line) lines p).lines (turn ignore (chomp line) lines p).parser
termination_by lines.length
decreasing_by exact Nat.lt_succ_of_le (length_turn_le ignore (chomp line) lines p)

/-- The specs of a file. -/
def fileSpecs (ignore : Text → Bool) (file : Option Text) : List Spec :=
  match file with
  | none => []
  | some file => specsOf ignore (fileLines file) (.start .empty)

/-- The users and the groups of a file depend on its specs only. -/
theorem parseLines_tables (ignore : Text → Bool) (lines : List Text) (p : Parser) (tables : Kind → Ids) :
    ((parseLines ignore lines p tables).tables, (parseLines ignore lines p tables).warning) =
      checkSpecs tables (specsOf ignore lines p) := by
  induction lines, p using specsOf.induct ignore generalizing tables with
  | case1 p => rw [parseLines, specsOf, checkSpecs]
  | case2 p line lines ih =>
    rw [parseLines, specsOf, checkSpecs_append]
    cases checkSpecs tables (turn ignore (chomp line) lines p).specs with
    | mk tables' warning =>
      cases warning with
      | none => exact ih tables'
      | some warning => rfl

/-- What a fresh process has read, by the specs of the file. -/
theorem parsePackageMetadata_init (ignore : Text → Bool) (file : Option Text) :
    ((parsePackageMetadata ignore file State.init).1 = some true → Consistent (fileSpecs ignore file)) ∧
      (Consistent (fileSpecs ignore file) →
        Represents (fileSpecs ignore file) (parsePackageMetadata ignore file State.init).2.tables) := by
  cases file with
  | none => exact ⟨fun h => absurd h (by simp [parsePackageMetadata]), fun _ => represents_nil⟩
  | some file =>
    obtain ⟨hiff, hrep⟩ := checkSpecs_iff consistent_nil represents_nil (fileSpecs ignore (some file))
    obtain ⟨htables, hwarning⟩ :=
      Prod.mk.inj (parseLines_tables ignore (fileLines file) (.start .empty) State.init.tables)
    constructor
    · intro h
      rw [parsePackageMetadata, Option.some.injEq, Option.isNone_iff_eq_none] at h
      exact hiff.mp (hwarning.symm.trans h)
    · intro h
      show Represents _ (parseLines ignore (fileLines file) (.start .empty) State.init.tables).tables
      rw [htables]
      exact hrep h

/-! ### One id for a name, one name for an id -/

/-- Every name has one id, that of all its specs; ids are in range, and no two names have the same one. -/
structure Unique (l : List Spec) (tables : Kind → Ids) : Prop where
  oneId : ∀ s ∈ l, ∃ name id, matchSpec s.spec = some (name, id) ∧
    ∃ e, (tables s.kind).names name = some e ∧ e.id = id
  range : ∀ kind name e i, (tables kind).names name = some e → e.id = some i →
    1 ≤ decimal i ∧ decimal i ≤ 65535
  injective : ∀ kind name name' e e' i i', (tables kind).names name = some e →
    (tables kind).names name' = some e' → e.id = some i → e'.id = some i' → decimal i = decimal i' →
    name = name'

/-- Tables that represent specs have each name and id once. -/
theorem unique_of_represents {l : List Spec} {tables : Kind → Ids} (h : Consistent l)
    (hr : Represents l tables) : Unique l tables := by
  -- Each entry comes from a spec.
  have hspec {kind name e i} (he : (tables kind).names name = some e) (hi : e.id = some i) :
      ∃ s ∈ l, s.Says kind name (some i) := (hr.names kind name (some i)).mp (by rw [he, Option.map_some, hi])
  have hvalid {s kind name i} (hs : s ∈ l) (hgives : s.Says kind name (some i)) : IdValid (some i) := by
    obtain ⟨name', id, hmatch, hvalid⟩ := h.valid s hs
    obtain ⟨-, rfl⟩ : name' = name ∧ id = some i := by simpa [hmatch] using hgives.2
    exact hvalid
  refine ⟨?_, ?_, ?_⟩
  · intro s hs
    obtain ⟨name, id, hmatch, -⟩ := h.valid s hs
    exact ⟨name, id, hmatch, Option.map_eq_some_iff.mp ((hr.names s.kind name id).mpr ⟨s, hs, rfl, hmatch⟩)⟩
  · intro kind name e i he hi
    obtain ⟨s, hs, hgives⟩ := hspec he hi
    obtain ⟨hpos, hlt⟩ := hvalid hs hgives i rfl
    have hone : 0 < decimal i := by
      apply decimal_pos (isDigit_of_matchSpec hgives.2)
      · intro hhead
        rw [isPositive, hhead] at hpos
        cases hpos
      · rintro rfl
        cases hpos
    omega
  -- equal numbers are equal texts, and a text has one name in a consistent list
  · intro kind name name' e e' i i' he he' hi hi' heq
    obtain ⟨s, hs, hgives⟩ := hspec he hi
    obtain ⟨s', hs', hgives'⟩ := hspec he' hi'
    have hsame := eq_of_idValue hgives.2 hgives'.2 (hvalid hs hgives) (hvalid hs' hgives')
      (by rw [idValue, idValue, heq])
    rw [← hsame] at hgives'
    exact h.oneName s hs s' hs' kind name name' i hgives hgives'

/-- A file that a fresh process reads to its end gives every name one id and every id one name. -/
theorem parsePackageMetadata_unique (ignore : Text → Bool) (file : Option Text)
    (h : (parsePackageMetadata ignore file State.init).1 = some true) :
    Unique (fileSpecs ignore file) (parsePackageMetadata ignore file State.init).2.tables := by
  obtain ⟨hcons, hrep⟩ := parsePackageMetadata_init ignore file
  exact unique_of_represents (hcons h) (hrep (hcons h))

/-- A file with one package, and what it requires. -/
def requires (value : Text) : Option Text :=
  some (ascii "Source-Makefile: package/foo/Makefile\nPackage: foo\nRequire-User: " ++ value)

/-- Specs with and without ids, one of them twice. -/
theorem parsePackageMetadata_unique_sample :
    Unique (fileSpecs (fun _ => false) (requires (ascii "a=5:b=6 c :a=7 a=5")))
      (parsePackageMetadata (fun _ => false) (requires (ascii "a=5:b=6 c :a=7 a=5")) State.init).2.tables :=
  parsePackageMetadata_unique _ _ (by decide +kernel)

/-! ### The next file -/

/-- The ids that are left over do not keep a name from its id. -/
def Free (left : Kind → Text → Option IdEntry) (kind : Kind) (name : Text) (id : Option Text) : Prop :=
  ∀ i, id = some i → ∀ e, left kind i = some e → e.name = name

/-- After the specs `l`, no spec of `l'` that goes together with all before it has an id that is left
    over with another name. -/
def Unaffected (left : Kind → Text → Option IdEntry) (l l' : List Spec) : Prop :=
  ∀ q s, q ++ [s] <+: l' → Consistent (l ++ (q ++ [s])) → ∀ name id, matchSpec s.spec = some (name, id) →
    Free left s.kind name id

/-- Tables that differ by the ids that are left over. -/
structure Coupled (left : Kind → Text → Option IdEntry) (tables tables' : Kind → Ids) : Prop where
  names : ∀ kind, (tables' kind).names = (tables kind).names
  ids : ∀ kind i, ((tables' kind).ids i).map (·.name) =
    (((tables kind).ids i).or (left kind i)).map (·.name)
  agree : ∀ kind i e e', (tables kind).ids i = some e → left kind i = some e' → e'.name = e.name

section Coupled

variable {left : Kind → Text → Option IdEntry} {tables tables' : Kind → Ids} {kind : Kind} {name : Text}
  {id : Option Text}

/-- What is left over only refuses more. -/
theorem Coupled.accepts (h : Coupled left tables tables') (hacc : Accepts (tables' kind) name id) :
    Accepts (tables kind) name id := by
  refine ⟨hacc.valid, ?_, ?_⟩
  · intro i hi e he
    have hname := h.ids kind i
    rw [he, Option.some_or, Option.map_some] at hname
    obtain ⟨e', he', heq⟩ := Option.map_eq_some_iff.mp hname
    rw [← heq]
    exact hacc.free i hi e' he'
  · intro e he
    exact hacc.same e (by rw [h.names]; exact he)

/-- What the tables accept is accepted beside the ids that are left over, if it is free. -/
theorem Coupled.accepts_of_free (h : Coupled left tables tables') (hacc : Accepts (tables kind) name id)
    (hfree : Free left kind name id) : Accepts (tables' kind) name id := by
  refine ⟨hacc.valid, ?_, ?_⟩
  · intro i hi e' he'
    have hname := h.ids kind i
    rw [he', Option.map_some] at hname
    obtain ⟨e, he, heq⟩ := Option.map_eq_some_iff.mp hname.symm
    rw [← heq]
    rcases Option.or_eq_some_iff.mp he with he | ⟨-, he⟩
    · exact hacc.free i hi e he
    · exact hfree i hi e he
  · intro e he
    exact hacc.same e (by rw [← h.names]; exact he)

/-- Entering a free spec keeps the tables coupled. -/
theorem Coupled.enter (h : Coupled left tables tables') (hfree : Free left kind name id)
    (makefile : Option Text) :
    Coupled left (Function.update tables kind (enter makefile (tables kind) name id))
      (Function.update tables' kind (enter makefile (tables' kind) name id)) := by
  constructor
  · intro kind'
    by_cases hkind : kind' = kind
    · subst hkind
      simp only [Function.update_self, Metadata.enter, h.names]
    · rw [Function.update_of_ne hkind, Function.update_of_ne hkind]
      exact h.names kind'
  · intro kind' i'
    by_cases hkind : kind' = kind
    · subst hkind
      rw [Function.update_self, Function.update_self]
      cases id with
      | none => exact h.ids kind' i'
      | some i =>
        have hi := h.ids kind' i
        simp only [Metadata.enter]
        -- `enter` writes the id only where the table has none, so the two tables are compared
        -- entry by entry
        cases he : (tables kind').ids i with
        | some e =>
          -- both have the id, from the same file
          have hsome : ((tables' kind').ids i).isSome := by
            rw [he, Option.some_or, Option.map_some] at hi
            obtain ⟨e', he', -⟩ := Option.map_eq_some_iff.mp hi
            rw [he']
            rfl
          simp only [Option.isSome_some, if_true, hsome]
          exact h.ids kind' i'
        | none =>
          rw [he, Option.none_or] at hi
          by_cases hi' : i' = i
          · subst hi'
            -- the id the first run left over is held by its old owner, which `hfree` says is the
            -- same name
            cases he' : (tables' kind').ids i' with
            | none => simp
            | some e' =>
              rw [he', Option.map_some] at hi
              obtain ⟨e, hleft, heq⟩ := Option.map_eq_some_iff.mp hi.symm
              simp [he', ← heq, hfree i' rfl e hleft]
          · cases he' : (tables' kind').ids i with
            | none =>
              simp only [Option.isSome_none, Bool.false_eq_true, if_false, Function.update_of_ne hi']
              exact h.ids kind' i'
            | some e' =>
              simp only [Option.isSome_none, Option.isSome_some, Bool.false_eq_true, if_false, if_true,
                Function.update_of_ne hi']
              exact h.ids kind' i'
    · rw [Function.update_of_ne hkind, Function.update_of_ne hkind]
      exact h.ids kind' i'
  · intro kind' i' e e' he hleft
    by_cases hkind : kind' = kind
    · subst hkind
      rw [Function.update_self] at he
      cases id with
      | none => exact h.agree kind' i' e e' he hleft
      | some i =>
        simp only [Metadata.enter] at he
        split at he
        · exact h.agree kind' i' e e' he hleft
        · by_cases hi : i' = i
          · subst hi
            rw [Function.update_self] at he
            rw [← Option.some.inj he]
            exact hfree i' rfl e' hleft
          · rw [Function.update_of_ne hi] at he
            exact h.agree kind' i' e e' he hleft
    · rw [Function.update_of_ne hkind] at he
      exact h.agree kind' i' e e' he hleft

/-- What both accept, nothing is left over against. -/
theorem Coupled.free (h : Coupled left tables tables') (hacc : Accepts (tables kind) name id)
    (hacc' : Accepts (tables' kind) name id) : Free left kind name id := by
  intro i hi e hleft
  cases he : (tables kind).ids i with
  | some e' => exact (h.agree kind i e' e he hleft).trans (hacc.free i hi e' he)
  | none =>
    have hids := h.ids kind i
    rw [he, hleft, Option.none_or, Option.map_some] at hids
    obtain ⟨e', he', heq⟩ := Option.map_eq_some_iff.mp hids
    rw [← heq]
    exact hacc'.free i hi e' he'

/-- A name that only a fresh process accepts was not there. -/
theorem Coupled.names_eq_none (h : Coupled left tables tables') {l : List Spec} (hl : Consistent l)
    (hr : Represents l tables) {s : Spec} (hspec : matchSpec s.spec = some (name, id))
    (hacc : Accepts (tables s.kind) name id) (hnot : ¬Accepts (tables' s.kind) name id) :
    (tables s.kind).names name = none := by
  cases he : (tables s.kind).names name with
  | none => rfl
  | some e =>
    -- The spec that entered the name entered the id as well.
    obtain ⟨s', hs', hgives⟩ := (hr.names s.kind name e.id).mp (by rw [he]; rfl)
    obtain ⟨name', id', hspec', hvalid⟩ := hl.valid s' hs'
    obtain ⟨rfl, rfl⟩ : name' = name ∧ id' = e.id := by simpa [hspec'] using hgives.2
    have hid : e.id = id := eq_of_idValue hspec' hspec hvalid hacc.valid (hacc.same e he)
    refine absurd ⟨hacc.valid, ?_, ?_⟩ hnot
    · intro i hi e' he'
      obtain ⟨e₁, he₁, hname⟩ := Option.map_eq_some_iff.mp
        ((hr.ids s.kind name' i).mpr ⟨s', hs', by rw [← hi, ← hid]; exact hgives⟩)
      have hids := h.ids s.kind i
      rw [he₁, he', Option.some_or, Option.map_some, Option.map_some, hname] at hids
      exact Option.some.inj hids
    · intro e' he'
      exact hacc.same e' (by rw [← h.names]; exact he')

/-- A name that is there stays. -/
private theorem isSome_names_checkSpecs (l : List Spec) (h : ((tables kind).names name).isSome) :
    (((checkSpecs tables l).1 kind).names name).isSome := by
  induction l generalizing tables with
  | nil => exact h
  | cons s l ih =>
    -- one step changes the tables of one kind
    have hstep {t : Ids} (ht : (((tables s.kind).names name).isSome → (t.names name).isSome)) :
        ((Function.update tables s.kind t kind).names name).isSome := by
      by_cases hkind : kind = s.kind
      · subst hkind
        rw [Function.update_self]
        exact ht h
      · rwa [Function.update_of_ne hkind]
    by_cases hs : ∃ name' id', matchSpec s.spec = some (name', id') ∧ Accepts (tables s.kind) name' id'
    · obtain ⟨name', id', hspec, hacc⟩ := hs
      simp only [checkSpecs, parsePackageMetadataUsergroup_of_accepts hspec hacc]
      refine ih (hstep fun h => ?_)
      simp only [Metadata.enter]
      split
      · exact h
      · by_cases hname : name = name'
        · rw [hname, Function.update_self]
          rfl
        · rwa [Function.update_of_ne hname]
    · obtain ⟨t', warning, hcall, hnames⟩ := parsePackageMetadataUsergroup_of_not s.makefile s.kind.typename
        (tables s.kind)
        fun name id hspec hacc => hs ⟨name, id, hspec, hacc⟩
      simp only [checkSpecs, hcall]
      exact hstep fun h => by rwa [hnames]

/-- The first spec and the others are unaffected. -/
private theorem unaffected_cons {l l' : List Spec} {s : Spec} (h : Consistent (l ++ [s])) :
    Unaffected left l (s :: l') ↔
      (∀ name id, matchSpec s.spec = some (name, id) → Free left s.kind name id) ∧
        Unaffected left (l ++ [s]) l' := by
  constructor
  · intro hun
    refine ⟨hun [] s (List.prefix_append [s] l') h, fun q s' hq hcons => hun (s :: q) s' ?_ ?_⟩
    · exact List.cons_prefix_cons.mpr ⟨rfl, hq⟩
    · rwa [List.cons_append, List.append_cons]
  · rintro ⟨hfree, hun⟩ q s' hq hcons
    -- what is read before the spec is nothing, or begins with the first one
    cases q with
    | nil =>
      obtain ⟨rfl, -⟩ := List.cons_prefix_cons.mp hq
      exact hfree
    | cons s₁ q =>
      obtain ⟨rfl, hq'⟩ := List.cons_prefix_cons.mp hq
      rw [List.cons_append, List.append_cons] at hcons
      exact hun q s' hq' hcons

/-- Behind a spec that does not go together nothing is looked at. -/
private theorem unaffected_of_not {l l' : List Spec} {s : Spec} (h : ¬Consistent (l ++ [s])) :
    Unaffected left l (s :: l') := by
  intro q s' hq hcons
  obtain ⟨s₁, rest, hrest⟩ :=
    List.exists_cons_of_ne_nil (List.append_ne_nil_of_right_ne_nil q (List.cons_ne_nil s' []))
  rw [hrest] at hq hcons
  obtain ⟨rfl, -⟩ := List.cons_prefix_cons.mp hq
  rw [List.append_cons] at hcons
  exact absurd hcons.of_append h

/-- Specs that are not affected are accepted, and enter the names, as in a fresh process. -/
theorem checkSpecs_coupled {l l' : List Spec} (hl : Consistent l) (hr : Represents l tables)
    (h : Coupled left tables tables') (hun : Unaffected left l l') :
    (checkSpecs tables' l').2.isNone = (checkSpecs tables l').2.isNone ∧
      (∀ kind, ((checkSpecs tables' l').1 kind).names = ((checkSpecs tables l').1 kind).names) ∧
        ((checkSpecs tables l').2 = none → Coupled left (checkSpecs tables l').1 (checkSpecs tables' l').1) := by
  -- both runs take the same specs, and stay coupled while no spec meets a left-over id
  induction l' generalizing l tables tables' with
  | nil => exact ⟨rfl, h.names, fun _ => h⟩
  | cons s l' ih =>
    by_cases hs : ∃ name id, matchSpec s.spec = some (name, id) ∧ Accepts (tables s.kind) name id
    · obtain ⟨name, id, hspec, hacc⟩ := hs
      have hl' := (accepts_iff hl hr).mp ⟨name, id, hspec, hacc⟩
      obtain ⟨hfree, hun'⟩ := (unaffected_cons hl').mp hun
      have hacc' := h.accepts_of_free hacc (hfree name id hspec)
      simp only [checkSpecs, parsePackageMetadataUsergroup_of_accepts hspec hacc,
        parsePackageMetadataUsergroup_of_accepts hspec hacc']
      exact ih hl' (hr.append hspec hacc hl' s.makefile) (h.enter (hfree name id hspec) s.makefile) hun'
    -- a spec the clean run refuses is refused with the left-over ids too, names unchanged
    · obtain ⟨t, warning, hcall, hnames⟩ := parsePackageMetadataUsergroup_of_not s.makefile s.kind.typename
        (tables s.kind)
        fun name id hspec hacc => hs ⟨name, id, hspec, hacc⟩
      obtain ⟨t', warning', hcall', hnames'⟩ := parsePackageMetadataUsergroup_of_not s.makefile s.kind.typename
        (tables' s.kind)
        fun name id hspec hacc => hs ⟨name, id, hspec, h.accepts hacc⟩
      simp only [checkSpecs, hcall, hcall']
      refine ⟨rfl, fun kind => ?_, fun hnone => absurd hnone (by simp)⟩
      by_cases hkind : kind = s.kind
      · subst hkind
        rw [Function.update_self, Function.update_self, hnames, hnames', h.names]
      · rw [Function.update_of_ne hkind, Function.update_of_ne hkind, h.names]

/-- The name of the first spec that is affected is missing. -/
theorem names_ne_of_affected {l l' : List Spec} (hl : Consistent l) (hr : Represents l tables)
    (h : Coupled left tables tables') (hnot : ¬Unaffected left l l') :
    ∃ kind name, ((checkSpecs tables' l').1 kind).names name ≠ ((checkSpecs tables l').1 kind).names name := by
  induction l' generalizing l tables tables' with
  | nil =>
    refine absurd (fun q s hq => ?_) hnot
    exact absurd (List.prefix_nil.mp hq) (by simp)
  | cons s l' ih =>
    by_cases hs : ∃ name id, matchSpec s.spec = some (name, id) ∧ Accepts (tables s.kind) name id
    · obtain ⟨name, id, hspec, hacc⟩ := hs
      have hl' := (accepts_iff hl hr).mp ⟨name, id, hspec, hacc⟩
      have honly {name' id'} (hspec' : matchSpec s.spec = some (name', id')) : name' = name ∧ id' = id := by
        obtain ⟨rfl, rfl⟩ : name = name' ∧ id = id' := by simpa [hspec] using hspec'
        exact ⟨rfl, rfl⟩
      by_cases hacc' : Accepts (tables' s.kind) name id
      -- both runs enter the name, and the difference is in the specs behind
      · have hfree := h.free hacc hacc'
        have hnot' : ¬Unaffected left (l ++ [s]) l' := by
          intro hun
          refine hnot ((unaffected_cons hl').mpr ⟨fun name' id' hspec' => ?_, hun⟩)
          obtain ⟨rfl, rfl⟩ := honly hspec'
          exact hfree
        simp only [checkSpecs, parsePackageMetadataUsergroup_of_accepts hspec hacc,
          parsePackageMetadataUsergroup_of_accepts hspec hacc']
        exact ih hl' (hr.append hspec hacc hl' s.makefile) (h.enter hfree s.makefile) hnot'
      -- the clean run enters the name here, the other one stops before it
      · have hnone := h.names_eq_none hl hr hspec hacc hacc'
        have hrefused : ∀ name' id', matchSpec s.spec = some (name', id') →
            ¬Accepts (tables' s.kind) name' id' := by
          intro name' id' hspec'
          obtain ⟨rfl, rfl⟩ := honly hspec'
          exact hacc'
        obtain ⟨t', warning, hcall, hnames⟩ := parsePackageMetadataUsergroup_of_not s.makefile
          s.kind.typename (tables' s.kind) hrefused
        refine ⟨s.kind, name, ?_⟩
        simp only [checkSpecs, parsePackageMetadataUsergroup_of_accepts hspec hacc, hcall, Function.update_self,
          hnames, h.names, hnone]
        intro heq
        have hsome : (((checkSpecs (Function.update tables s.kind (enter s.makefile (tables s.kind) name id))
            l').1 s.kind).names name).isSome := isSome_names_checkSpecs l' (by simp [enter, hnone])
        rw [← heq] at hsome
        cases hsome
    · exact absurd (unaffected_of_not fun hcons => hs ((accepts_iff hl hr).mpr hcons)) hnot

end Coupled

/-- Two processes have the same tables, but for the ids. -/
structure Same (r r' : Option Bool × State) : Prop where
  status : r.1 = r'.1
  packages : r.2.packages = r'.2.packages
  names : ∀ kind, (r.2.tables kind).names = (r'.2.tables kind).names

/-- Before the first line, the tables differ by what `clear_packages` does not forget. -/
theorem coupled_clearPackages (st : State) :
    Coupled (fun kind => (st.tables kind).ids) State.init.tables (clearPackages st).tables where
  names _ := rfl
  ids _ _ := rfl
  agree _ _ _ _ he _ := absurd he (by simp [State.init])

/-- The packages of lines are the same too. -/
theorem parseLines_coupled (ignore : Text → Bool) {left : Kind → Text → Option IdEntry} (lines : List Text)
    (p : Parser) {l : List Spec} {tables tables' : Kind → Ids} (hl : Consistent l) (hr : Represents l tables)
    (h : Coupled left tables tables') (hun : Unaffected left l (specsOf ignore lines p)) :
    (parseLines ignore lines p tables').parser = (parseLines ignore lines p tables).parser := by
  -- the parser's own recursion; the specs of a line are checked before the next line is read
  induction lines, p using specsOf.induct ignore generalizing l tables tables' with
  | case1 p => rw [parseLines, parseLines]
  | case2 p line lines ih =>
    rw [specsOf] at hun
    generalize hspecs : (turn ignore (chomp line) lines p).specs = specs at hun
    have hfirst : Unaffected left l specs := fun q s hq => hun q s (hq.trans (List.prefix_append _ _))
    obtain ⟨hnone, -, hcoupled⟩ := checkSpecs_coupled hl hr h hfirst
    obtain ⟨hiff, hrep⟩ := checkSpecs_iff hl hr specs
    rw [parseLines, parseLines, hspecs]
    cases hcheck : checkSpecs tables specs with
    | mk t warning =>
      cases hcheck' : checkSpecs tables' specs with
      | mk t' warning' =>
        rw [hcheck, hcheck'] at hnone
        cases warning with
        | some warning =>
          cases warning' with
          | some warning' => rfl
          | none => cases hnone
        | none =>
          cases warning' with
          | some warning' => cases hnone
          | none =>
            rw [hcheck] at hiff hrep hcoupled
            rw [hcheck'] at hcoupled
            have hcons := hiff.mp rfl
            -- a prefix of what remains is a prefix of the whole once this line's specs stand in
            -- front
            refine ih hcons (hrep hcons) (hcoupled rfl) fun q s hq hcons' => ?_
            refine hun (specs ++ q) s ?_ ?_
            · rw [List.append_assoc]
              exact (List.prefix_append_right_inj _).mpr hq
            · rwa [List.append_assoc, ← List.append_assoc l]

/-- Reading a file after `clear_packages` is reading it in a fresh process exactly if no id that the file
    enters is left over with another name. -/
theorem parsePackageMetadata_clear_iff (ignore : Text → Bool) (file₁ file₂ : Option Text) :
    Same
        (parsePackageMetadata ignore file₂ (clearPackages (parsePackageMetadata ignore file₁ State.init).2))
        (parsePackageMetadata ignore file₂ State.init) ↔
      Unaffected (fun kind => ((parsePackageMetadata ignore file₁ State.init).2.tables kind).ids) []
        (fileSpecs ignore file₂) := by
  generalize (parsePackageMetadata ignore file₁ State.init).2 = st
  have hcoupled := coupled_clearPackages st
  cases file₂ with
  | none =>
    refine iff_of_true ⟨rfl, rfl, fun _ => rfl⟩ fun q s hq => ?_
    exact absurd (List.prefix_nil.mp hq) (by simp)
  | some file =>
    obtain ⟨htables, hwarning⟩ :=
      Prod.mk.inj (parseLines_tables ignore (fileLines file) (.start .empty) State.init.tables)
    obtain ⟨htables', hwarning'⟩ :=
      Prod.mk.inj (parseLines_tables ignore (fileLines file) (.start .empty) (clearPackages st).tables)
    constructor
    · intro hsame
      -- a left-over id that matters shows in a name table
      by_contra hnot
      obtain ⟨kind, name, hne⟩ := names_ne_of_affected consistent_nil represents_nil hcoupled hnot
      have hnames := hsame.names kind
      refine hne (congrFun ?_ name)
      rw [fileSpecs, ← htables, ← htables']
      exact hnames
    -- and without one, the two runs agree in status, packages and names
    · intro hun
      obtain ⟨hstatus, hnames, -⟩ := checkSpecs_coupled consistent_nil represents_nil hcoupled hun
      have hparser := parseLines_coupled ignore (fileLines file) (.start .empty) consistent_nil
        represents_nil hcoupled hun
      rw [fileSpecs] at hstatus hnames
      rw [← hwarning, ← hwarning'] at hstatus
      rw [← htables, ← htables'] at hnames
      refine ⟨?_, ?_, hnames⟩
      · exact congrArg some hstatus
      · exact congrArg Parser.toPackages hparser

/-- An id that the first file gives to a name cannot be given to another one by the second. -/
theorem parsePackageMetadata_clear_differs : ¬∀ file₁ file₂ : Option Text,
    Same
      (parsePackageMetadata (fun _ => false) file₂
        (clearPackages (parsePackageMetadata (fun _ => false) file₁ State.init).2))
      (parsePackageMetadata (fun _ => false) file₂ State.init) := by
  intro hall
  have hstatus := (hall (requires (ascii "a=5")) (requires (ascii "b=5"))).status
  exact absurd hstatus (by decide +kernel)

end HandsomeMod.Native.Metadata
