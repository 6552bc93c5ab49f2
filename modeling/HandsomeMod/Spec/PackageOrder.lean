import HandsomeMod.Native.PackageMetadata

/-!
# The order of a menu

`find_package_dep` finds the packages that a package depends on, through other packages and through
what they provide. Two packages of a menu are compared by that, and by their names if neither
depends on the other. This is an order unless a package stands by its name between two others of
which the first depends on the second, and has nothing to do with them.
-/

namespace HandsomeMod.Native.PackageMetadata

open ForStd

variable {vpackage : List (Text × List Pkg)}

/-- All packages that have a name or provide one -/
def packages (vpackage : List (Text × List Pkg)) : List Pkg := vpackage.flatMap Prod.snd

/-- A package has an entry for another one. -/
def Lists (vpackage : List (Text × List Pkg)) (p q : Pkg) : Prop := q ∈ vdeps vpackage p

/-- A package depends on another one, maybe through others. -/
def DependsOn (vpackage : List (Text × List Pkg)) : Pkg → Pkg → Prop :=
  Relation.TransGen (Lists vpackage)

/-- A name is that of one package. -/
def Distinct (vpackage : List (Text × List Pkg)) : Prop :=
  ∀ p ∈ packages vpackage, ∀ q ∈ packages vpackage, p.name = q.name → p = q

/-- What is listed is a package. -/
private theorem mem_packages {p q : Pkg} (h : Lists vpackage p q) : q ∈ packages vpackage := by
  obtain ⟨vpkg, -, hq⟩ := List.mem_flatMap.mp h
  cases hlookup : vpackage.lookup vpkg with
  | none =>
    rw [hlookup] at hq
    cases hq
  | some l =>
    rw [hlookup] at hq
    exact List.mem_flatMap.mpr ⟨(vpkg, l), Assoc.mem_of_lookup hlookup, hq⟩

/-- What is depended on is a package. -/
theorem DependsOn.mem {p q : Pkg} (h : DependsOn vpackage p q) : q ∈ packages vpackage := by
  cases h with
  | single h => exact mem_packages h
  | tail _ h => exact mem_packages h

/-! ### The search -/

/-- What a search without success adds to `%dep_check`: not the name, and with each package what it
    has entries for. -/
structure Searched (vpackage : List (Text × List Pkg)) (name : Text) (seen seen' : List Text) :
    Prop where
  subset : ∀ n ∈ seen, n ∈ seen'
  ne : ∀ n ∈ seen', n ∉ seen → n ≠ name
  closed : ∀ q ∈ packages vpackage, q.name ∈ seen' → q.name ∉ seen →
    ∀ d ∈ vdeps vpackage q, d.name ∈ seen'

/-- A search of nothing. -/
theorem Searched.refl (name : Text) (seen : List Text) : Searched vpackage name seen seen where
  subset _ h := h
  ne _ h hnot := absurd h hnot
  closed _ _ h hnot := absurd h hnot

/-- Searches that follow one another. -/
theorem Searched.trans {name : Text} {s₁ s₂ s₃ : List Text} (h : Searched vpackage name s₁ s₂)
    (h' : Searched vpackage name s₂ s₃) : Searched vpackage name s₁ s₃ where
  subset n hn := h'.subset n (h.subset n hn)
  ne n hn hnot := by
    by_cases hmid : n ∈ s₂
    · exact h.ne n hmid hnot
    · exact h'.ne n hn hmid
  closed q hq hn hnot d hd := by
    by_cases hmid : q.name ∈ s₂
    · exact h'.subset _ (h.closed q hq hmid hnot d hd)
    · exact h'.closed q hq hn hmid d hd

/-- A package of another name that has been searched. -/
theorem Searched.of_cons {name : Text} {seen seen' : List Text} {p : Pkg}
    (hdistinct : Distinct vpackage) (hp : p ∈ packages vpackage) (hname : p.name ≠ name)
    (h : Searched vpackage name (p.name :: seen) seen')
    (hdeps : ∀ d ∈ vdeps vpackage p, d.name ∈ seen') : Searched vpackage name seen seen' where
  subset n hn := h.subset n (List.mem_cons_of_mem _ hn)
  ne n hn hnot := by
    by_cases heq : n = p.name
    · exact heq ▸ hname
    · exact h.ne n hn (List.not_mem_cons_of_ne_of_not_mem heq hnot)
  closed q hq hn hnot d hd := by
    by_cases heq : q.name = p.name
    · obtain rfl := hdistinct q hq p hp heq
      exact hdeps d hd
    · exact h.closed q hq hn (List.not_mem_cons_of_ne_of_not_mem heq hnot) d hd

/-- What a call gives: a package of the name, or the dependencies that it has searched. -/
def Finds (vpackage : List (Text × List Pkg)) (name : Text)
    (find : Pkg → List Text → Option (Bool × List Text)) : Prop :=
  ∀ p seen b seen', find p seen = some (b, seen') →
    (b = true → ∃ q, DependsOn vpackage p q ∧ q.name = name) ∧
    (b = false → Searched vpackage name seen seen' ∧ ∀ d ∈ vdeps vpackage p, d.name ∈ seen')

/-- What the search through a list of dependencies finds, and adds to the seen ones. -/
theorem searchDeps_spec {name : Text} {find : Pkg → List Text → Option (Bool × List Text)}
    (hdistinct : Distinct vpackage) (hfind : Finds vpackage name find) {l : List Pkg}
    (hl : ∀ d ∈ l, d ∈ packages vpackage) {seen seen' : List Text} {b : Bool}
    (h : searchDeps find name l seen = some (b, seen')) :
    (b = true → ∃ d ∈ l, ∃ q, Relation.ReflTransGen (Lists vpackage) d q ∧ q.name = name) ∧
    (b = false → Searched vpackage name seen seen' ∧ ∀ d ∈ l, d.name ∈ seen') := by
  -- a package seen before is passed over, the others are compared and then searched
  induction l generalizing seen with
  | nil =>
    cases h
    exact ⟨fun hb => Bool.noConfusion hb,
      fun _ => ⟨.refl name _, fun d hd => absurd hd List.not_mem_nil⟩⟩
  | cons p l ih =>
    have hrest := @ih (fun d hd => hl d (List.mem_cons_of_mem p hd))
    have hp := hl p List.mem_cons_self
    rw [searchDeps] at h
    split at h
    · next hseen =>
      obtain ⟨htrue, hfalse⟩ := hrest h
      refine ⟨fun hb => ?_, fun hb => ?_⟩
      · obtain ⟨d, hd, hq⟩ := htrue hb
        exact ⟨d, List.mem_cons_of_mem p hd, hq⟩
      · obtain ⟨hsearched, hall⟩ := hfalse hb
        exact ⟨hsearched, List.forall_mem_cons.mpr ⟨hsearched.subset _ hseen, hall⟩⟩
    · split at h
      · next hname =>
        -- the package itself has the name
        cases h
        exact ⟨fun _ => ⟨p, List.mem_cons_self, p, .refl, hname⟩, fun hb => Bool.noConfusion hb⟩
      · next hname =>
        split at h
        · cases h
        · next seen₁ hcall =>
          cases h
          -- the search below it found the name
          obtain ⟨q, hq, heq⟩ := (hfind _ _ _ _ hcall).1 rfl
          exact ⟨fun _ => ⟨p, List.mem_cons_self, q, hq.to_reflTransGen, heq⟩,
            fun hb => Bool.noConfusion hb⟩
        · next seen₁ hcall =>
          obtain ⟨hinner, hdeps⟩ := (hfind _ _ _ _ hcall).2 rfl
          -- nothing below it: its own search is done
          have hstep := Searched.of_cons hdistinct hp hname hinner hdeps
          have hmem : p.name ∈ seen₁ := hinner.subset _ List.mem_cons_self
          obtain ⟨htrue, hfalse⟩ := hrest h
          refine ⟨fun hb => ?_, fun hb => ?_⟩
          · obtain ⟨d, hd, hq⟩ := htrue hb
            exact ⟨d, List.mem_cons_of_mem p hd, hq⟩
          · obtain ⟨hsearched, hall⟩ := hfalse hb
            exact ⟨hstep.trans hsearched,
              List.forall_mem_cons.mpr ⟨hsearched.subset _ hmem, hall⟩⟩

/-- So does the search from a package, with any fuel. -/
theorem findPackageDepFrom_spec (hdistinct : Distinct vpackage) (name : Text) (fuel : Nat) :
    Finds vpackage name (findPackageDepFrom vpackage name fuel) := by
  induction fuel with
  | zero =>
    intro p seen b seen' h
    cases h
  | succ fuel ih =>
    intro p seen b seen' h
    obtain ⟨htrue, hfalse⟩ := searchDeps_spec hdistinct ih (fun d hd => mem_packages hd) h
    refine ⟨fun hb => ?_, hfalse⟩
    obtain ⟨d, hd, q, hq, hname⟩ := htrue hb
    exact ⟨q, .head' hd hq, hname⟩

/-! ### It ends -/

/-- How many names have not been come to. -/
def unseen (vpackage : List (Text × List Pkg)) (seen : List Text) : Nat :=
  (((packages vpackage).map Pkg.name).toFinset \ seen.toFinset).card

/-- Seeing more leaves no more unseen. -/
private theorem unseen_le (vpackage : List (Text × List Pkg)) {seen seen' : List Text}
    (h : ∀ n ∈ seen, n ∈ seen') :
    unseen vpackage seen' ≤ unseen vpackage seen := by
  apply Finset.card_le_card
  intro n hn
  rw [Finset.mem_sdiff, List.mem_toFinset] at hn ⊢
  exact ⟨hn.1, fun hseen => hn.2 (List.mem_toFinset.mpr (h n (List.mem_toFinset.mp hseen)))⟩

/-- Seeing a new package leaves fewer unseen. -/
private theorem unseen_cons_lt {p : Pkg} {seen : List Text} (hp : p ∈ packages vpackage)
    (h : p.name ∉ seen) : unseen vpackage (p.name :: seen) < unseen vpackage seen := by
  apply Finset.card_lt_card
  rw [Finset.ssubset_iff_of_subset]
  · refine ⟨p.name, ?_, ?_⟩
    · rw [Finset.mem_sdiff, List.mem_toFinset, List.mem_toFinset]
      exact ⟨List.mem_map_of_mem hp, h⟩
    · rw [Finset.mem_sdiff, List.mem_toFinset, List.mem_toFinset]
      exact fun hn => hn.2 List.mem_cons_self
  · intro n hn
    rw [Finset.mem_sdiff, List.mem_toFinset, List.mem_toFinset] at hn ⊢
    exact ⟨hn.1, fun hseen => hn.2 (List.mem_cons_of_mem _ hseen)⟩

/-- At first no more are unseen than there are packages. -/
private theorem unseen_nil_le : unseen vpackage [] ≤ (packages vpackage).length := by
  rw [unseen, List.toFinset_nil, Finset.sdiff_empty]
  exact (List.toFinset_card_le _).trans (le_of_eq (List.length_map _))

/-- With fuel for the unseen packages a list is searched. -/
private theorem searchDeps_isSome {name : Text} {find : Pkg → List Text → Option (Bool × List Text)}
    {fuel : Nat} (hfind : Finds vpackage name find)
    (hsome : ∀ p seen, unseen vpackage seen < fuel → (find p seen).isSome) {l : List Pkg}
    (hl : ∀ d ∈ l, d ∈ packages vpackage) {seen : List Text}
    (h : unseen vpackage seen < fuel + 1) : (searchDeps find name l seen).isSome := by
  induction l generalizing seen with
  | nil => rfl
  | cons p l ih =>
    have hrest := fun seen => @ih (fun d hd => hl d (List.mem_cons_of_mem p hd)) seen
    rw [searchDeps]
    split
    · exact hrest _ h
    · next hseen =>
      -- the measure is the number of packages not yet seen
      have hlt := unseen_cons_lt (hl p List.mem_cons_self) hseen
      split
      · rfl
      · obtain ⟨⟨b, seen₁⟩, hcall⟩ :=
          Option.isSome_iff_exists.mp (hsome p (p.name :: seen) (by omega))
        rw [hcall]
        cases b with
        | true => rfl
        | false =>
          have hle := unseen_le vpackage ((hfind _ _ _ _ hcall).2 rfl).1.subset
          exact hrest _ (by omega)

/-- So is a package. -/
private theorem findPackageDepFrom_isSome (hdistinct : Distinct vpackage) (name : Text) {fuel : Nat}
    (p : Pkg) {seen : List Text} (h : unseen vpackage seen < fuel) :
    (findPackageDepFrom vpackage name fuel p seen).isSome := by
  induction fuel generalizing p seen with
  | zero => omega
  | succ fuel ih =>
    exact searchDeps_isSome (findPackageDepFrom_spec hdistinct name fuel)
      (fun p _ hlt => ih p hlt) (fun d hd => mem_packages hd) h

/-- The calls inside each other are no more than the packages. -/
theorem exists_findPackageDepFrom (hdistinct : Distinct vpackage) (p : Pkg) (name : Text) :
    ∃ b seen, findPackageDepFrom vpackage name ((vpackage.flatMap Prod.snd).length + 1) p [] =
      some (b, seen) := by
  have hlt : unseen vpackage [] < (vpackage.flatMap Prod.snd).length + 1 :=
    Nat.lt_succ_of_le unseen_nil_le
  obtain ⟨⟨b, seen⟩, hrun⟩ := Option.isSome_iff_exists.mp
    (findPackageDepFrom_isSome hdistinct name p hlt)
  exact ⟨b, seen, hrun⟩

/-- `find_package_dep` finds what the package depends on. -/
theorem findPackageDep_iff (hdistinct : Distinct vpackage) (p : Pkg) (name : Text) :
    findPackageDep vpackage p name = some true ↔
      ∃ q, DependsOn vpackage p q ∧ q.name = name := by
  obtain ⟨b, seen, hrun⟩ := exists_findPackageDepFrom hdistinct p name
  obtain ⟨htrue, hfalse⟩ := findPackageDepFrom_spec hdistinct name _ _ _ _ _ hrun
  rw [findPackageDep, hrun, Option.map_some, Option.some.injEq]
  refine ⟨htrue, ?_⟩
  rintro ⟨q, hq, hname⟩
  cases b with
  | true => rfl
  | false =>
    obtain ⟨hsearched, hdeps⟩ := hfalse rfl
    -- whatever the package depends on has been come to
    have hmem : q.name ∈ seen := by
      clear hname
      induction hq with
      | single h => exact hdeps _ h
      | tail hinit hlast ih =>
        exact hsearched.closed _ (DependsOn.mem hinit) ih List.not_mem_nil _ hlast
    exact absurd hname (hsearched.ne _ hmem List.not_mem_nil)

/-- The search finds exactly what a package depends on. -/
private theorem findPackageDep_iff_dependsOn (hdistinct : Distinct vpackage) (p : Pkg) {q : Pkg}
    (hq : q ∈ packages vpackage) :
    findPackageDep vpackage p q.name = some true ↔ DependsOn vpackage p q := by
  rw [findPackageDep_iff hdistinct]
  constructor
  · rintro ⟨r, hr, hname⟩
    rwa [hdistinct q hq r (DependsOn.mem hr) hname.symm]
  · exact fun h => ⟨q, h, rfl⟩

/-- Whatever the dependencies are, `find_package_dep` returns, and says if there is a way to the
    name. -/
theorem findPackageDep_reaches (hdistinct : Distinct vpackage) (p : Pkg) (name : Text) :
    ∃ found, findPackageDep vpackage p name = some found ∧
      (found = true ↔ ∃ q, DependsOn vpackage p q ∧ q.name = name) := by
  obtain ⟨b, seen, hrun⟩ := exists_findPackageDepFrom hdistinct p name
  have hfind : findPackageDep vpackage p name = some b := by
    rw [findPackageDep, hrun, Option.map_some]
  refine ⟨b, hfind, ?_⟩
  rw [← findPackageDep_iff hdistinct, hfind, Option.some.injEq]

/-- Two packages that depend on each other. -/
def cyclicVpackage : List (Text × List Pkg) :=
  [([0x61], [⟨[0x61], [], [[0x62]]⟩]), ([0x62], [⟨[0x62], [], [[0x61]]⟩])]

/-- Packages that depend on each other. -/
theorem findPackageDep_reaches_cyclic : ∃ found,
    findPackageDep cyclicVpackage ⟨[0x61], [], [[0x62]]⟩ [0x63] = some found ∧
      (found = true ↔ ∃ q, DependsOn cyclicVpackage ⟨[0x61], [], [[0x62]]⟩ q ∧ q.name = [0x63]) :=
  findPackageDep_reaches (by unfold Distinct; decide) _ _

/-! ### The comparison -/

/-- A menu: different packages with one submenu, none of which depends on itself. -/
structure Menu (vpackage : List (Text × List Pkg)) (menu : List Pkg) : Prop where
  distinct : Distinct vpackage
  mem : ∀ p ∈ menu, p ∈ packages vpackage
  nodup : menu.Nodup
  submenu : ∀ p ∈ menu, ∀ q ∈ menu, p.submenu = q.submenu
  acyclic : ∀ p ∈ menu, ¬DependsOn vpackage p p

/-- Neither of two packages depends on the other. -/
def Apart (vpackage : List (Text × List Pkg)) (p q : Pkg) : Prop :=
  ¬DependsOn vpackage p q ∧ ¬DependsOn vpackage q p

/-- The comparison of names is antisymmetric. -/
private theorem cmp_swap (a b : Text) : cmp b a = -cmp a b := by
  unfold cmp
  by_cases hlt : a < b
  · simp only [if_pos hlt, if_neg (List.lt_asymm hlt), Int.neg_neg]
  · by_cases hgt : b < a
    · simp only [if_pos hgt, if_neg hlt]
    · simp only [if_neg hgt, if_neg hlt, Int.neg_zero]

/-- One of two different names is the smaller one. -/
private theorem lt_of_not_lt {a b : Text} (h : ¬a < b) (hne : b ≠ a) : b < a := by
  by_contra hnot
  exact hne (List.le_antisymm h hnot)

/-- The comparison of names is the order of texts. -/
private theorem cmp_lt_zero_iff {a b : Text} : cmp a b < 0 ↔ a < b := by
  unfold cmp
  split
  · next h => exact iff_of_true (by decide) h
  · next h => split <;> exact iff_of_false (by decide) h

section Menu

variable {menu : List Pkg} (h : Menu vpackage menu) {a b c : Pkg}

include h

/-- Packages of a menu have different names. -/
theorem Menu.ne_name (ha : a ∈ menu) (hb : b ∈ menu) (hne : a ≠ b) : a.name ≠ b.name :=
  fun hname => hne (h.distinct a (h.mem a ha) b (h.mem b hb) hname)

/-- In a menu no two packages depend on each other. -/
theorem Menu.asymm (ha : a ∈ menu) (hab : DependsOn vpackage a b) : ¬DependsOn vpackage b a :=
  fun hba => h.acyclic a ha (hab.trans hba)

/-- A package comes behind one that it depends on. -/
theorem Menu.menuCmp_of_dependsOn (ha : a ∈ menu) (hb : b ∈ menu) (hab : DependsOn vpackage a b) :
    menuCmp vpackage a b = 1 := by
  have hfind := (findPackageDep_iff_dependsOn h.distinct a (h.mem b hb)).mpr hab
  have hdeps : packageDepends vpackage a b = 1 := by
    rw [packageDepends, if_neg (not_not.mpr (h.submenu a ha b hb)), if_pos hfind]
  rw [menuCmp, hdeps, if_pos (by decide)]

/-- A package comes in front of what depends on it. -/
theorem Menu.menuCmp_of_dependsOn' (ha : a ∈ menu) (hb : b ∈ menu) (hba : DependsOn vpackage b a) :
    menuCmp vpackage a b = -1 := by
  have hfind := (findPackageDep_iff_dependsOn h.distinct b (h.mem a ha)).mpr hba
  have hnot := mt (findPackageDep_iff_dependsOn h.distinct a (h.mem b hb)).mp (h.asymm hb hba)
  have hdeps : packageDepends vpackage a b = -1 := by
    rw [packageDepends, if_neg (not_not.mpr (h.submenu a ha b hb)), if_neg hnot, if_pos hfind]
  rw [menuCmp, hdeps, if_pos (by decide)]

/-- Packages that do not depend on each other come by name. -/
theorem Menu.menuCmp_of_apart (ha : a ∈ menu) (hb : b ∈ menu) (hapart : Apart vpackage a b) :
    menuCmp vpackage a b = cmp a.name b.name := by
  have hnot := mt (findPackageDep_iff_dependsOn h.distinct a (h.mem b hb)).mp hapart.1
  have hnot' := mt (findPackageDep_iff_dependsOn h.distinct b (h.mem a ha)).mp hapart.2
  have hdeps : packageDepends vpackage a b = 0 := by
    rw [packageDepends, if_neg (not_not.mpr (h.submenu a ha b hb)), if_neg hnot, if_neg hnot']
  rw [menuCmp, hdeps, if_neg (by decide)]

omit h in

/-- One depends on the other, or they are apart. -/
private theorem dependsOn_cases (vpackage : List (Text × List Pkg)) (a b : Pkg) :
    DependsOn vpackage a b ∨ DependsOn vpackage b a ∨ Apart vpackage a b := by
  by_cases hab : DependsOn vpackage a b
  · exact .inl hab
  · by_cases hba : DependsOn vpackage b a
    · exact .inr (.inl hba)
    · exact .inr (.inr ⟨hab, hba⟩)

/-- The comparison is antisymmetric. -/
theorem Menu.menuCmp_swap (ha : a ∈ menu) (hb : b ∈ menu) :
    menuCmp vpackage b a = -menuCmp vpackage a b := by
  rcases dependsOn_cases vpackage a b with hab | hba | hapart
  · rw [h.menuCmp_of_dependsOn ha hb hab, h.menuCmp_of_dependsOn' hb ha hab]
  · rw [h.menuCmp_of_dependsOn' ha hb hba, h.menuCmp_of_dependsOn hb ha hba, Int.neg_neg]
  · rw [h.menuCmp_of_apart ha hb hapart, h.menuCmp_of_apart hb ha hapart.symm, cmp_swap]

/-- The packages that come first are those that are depended on, and those of a smaller name. -/
theorem Menu.menuCmp_lt_zero_iff (ha : a ∈ menu) (hb : b ∈ menu) : menuCmp vpackage a b < 0 ↔
    DependsOn vpackage b a ∨ (Apart vpackage a b ∧ a.name < b.name) := by
  rcases dependsOn_cases vpackage a b with hab | hba | hapart
  · rw [h.menuCmp_of_dependsOn ha hb hab]
    refine iff_of_false (by decide) ?_
    rintro (hba | ⟨hapart, -⟩)
    · exact h.asymm ha hab hba
    · exact hapart.1 hab
  · rw [h.menuCmp_of_dependsOn' ha hb hba]
    exact iff_of_true (by decide) (.inl hba)
  · rw [h.menuCmp_of_apart ha hb hapart, cmp_lt_zero_iff]
    exact ⟨fun hlt => .inr ⟨hapart, hlt⟩, fun hor => hor.elim (absurd · hapart.2) And.right⟩

/-- Different packages are comparable. -/
theorem Menu.total (ha : a ∈ menu) (hb : b ∈ menu) (hne : a ≠ b) :
    menuCmp vpackage a b < 0 ∨ menuCmp vpackage b a < 0 := by
  rw [h.menuCmp_lt_zero_iff ha hb, h.menuCmp_lt_zero_iff hb ha]
  rcases dependsOn_cases vpackage a b with hab | hba | hapart
  · exact .inr (.inl hab)
  · exact .inl (.inl hba)
  · by_cases hlt : a.name < b.name
    · exact .inl (.inr ⟨hapart, hlt⟩)
    · exact .inr (.inr ⟨hapart.symm, lt_of_not_lt hlt (h.ne_name ha hb hne).symm⟩)

end Menu

/-! ### When it is an order -/

/-- The comparison orders a menu: it is antisymmetric, total and transitive, the menu can be sorted
    by it, and then every package is behind those that it depends on. -/
structure Ordered (vpackage : List (Text × List Pkg)) (menu : List Pkg) : Prop where
  antisymm : ∀ a ∈ menu, ∀ b ∈ menu, menuCmp vpackage b a = -menuCmp vpackage a b
  total : ∀ a ∈ menu, ∀ b ∈ menu, a ≠ b → menuCmp vpackage a b < 0 ∨ menuCmp vpackage b a < 0
  trans : ∀ a ∈ menu, ∀ b ∈ menu, ∀ c ∈ menu, menuCmp vpackage a b < 0 → menuCmp vpackage b c < 0 →
    menuCmp vpackage a c < 0
  sorted : ∃ l : List Pkg, l.Perm menu ∧ l.Pairwise fun a b => menuCmp vpackage a b < 0
  behind : ∀ l : List Pkg, l.Perm menu → (l.Pairwise fun a b => menuCmp vpackage a b < 0) →
    l.Pairwise fun a b => ¬DependsOn vpackage a b

/-- A package `b` stands by its name between `a` and `c`, of which `a` depends on `c`, and has
    nothing to do with them. -/
def Parted (vpackage : List (Text × List Pkg)) (menu : List Pkg) : Prop :=
  ∃ a ∈ menu, ∃ b ∈ menu, ∃ c ∈ menu, DependsOn vpackage a c ∧ Apart vpackage a b ∧
    Apart vpackage b c ∧ a.name < b.name ∧ b.name < c.name

/-- A dependency against the order of names breaks transitivity. -/
theorem Menu.not_trans {menu : List Pkg} (h : Menu vpackage menu) (hparted : Parted vpackage menu) :
    ∃ a ∈ menu, ∃ b ∈ menu, ∃ c ∈ menu, menuCmp vpackage a b < 0 ∧ menuCmp vpackage b c < 0 ∧
      ¬menuCmp vpackage a c < 0 := by
  obtain ⟨a, ha, b, hb, c, hc, hac, hab, hbc, hlt, hlt'⟩ := hparted
  refine ⟨a, ha, b, hb, c, hc, (h.menuCmp_lt_zero_iff ha hb).mpr (.inr ⟨hab, hlt⟩),
    (h.menuCmp_lt_zero_iff hb hc).mpr (.inr ⟨hbc, hlt'⟩), ?_⟩
  rw [h.menuCmp_of_dependsOn ha hc hac]
  decide

/-- Without one the comparison is transitive. -/
theorem Menu.trans {menu : List Pkg} (h : Menu vpackage menu) (hparted : ¬Parted vpackage menu)
    {a b c : Pkg} (ha : a ∈ menu) (hb : b ∈ menu) (hc : c ∈ menu)
    (hab : menuCmp vpackage a b < 0) (hbc : menuCmp vpackage b c < 0) :
    menuCmp vpackage a c < 0 := by
  rw [h.menuCmp_lt_zero_iff ha hb] at hab
  rw [h.menuCmp_lt_zero_iff hb hc] at hbc
  rw [h.menuCmp_lt_zero_iff ha hc]
  rcases dependsOn_cases vpackage a c with hac | hca | hapart
  · -- the first package cannot depend on the last one
    exfalso
    rcases hab with hba | ⟨hab, hlt⟩
    · rcases hbc with hcb | ⟨hbc, -⟩
      · exact h.asymm hc (hcb.trans hba) hac
      · exact hbc.1 (hba.trans hac)
    · rcases hbc with hcb | ⟨hbc, hlt'⟩
      · exact hab.1 (hac.trans hcb)
      · exact hparted ⟨a, ha, b, hb, c, hc, hac, hab, hbc, hlt, hlt'⟩
  · exact .inl hca
  -- neither depends on the other: their names are in order unless the menu is parted
  · refine .inr ⟨hapart, ?_⟩
    by_contra hnot
    rcases hab with hba | ⟨hab, hlt⟩
    · rcases hbc with hcb | ⟨hbc, hlt'⟩
      · exact hapart.2 (hcb.trans hba)
      · have hne : c ≠ a := fun heq => hbc.1 (heq ▸ hba)
        exact hparted ⟨b, hb, c, hc, a, ha, hba, hbc, hapart.symm, hlt',
          lt_of_not_lt hnot (h.ne_name hc ha hne)⟩
    · rcases hbc with hcb | ⟨-, hlt'⟩
      · have hne : c ≠ a := fun heq => hab.1 (heq ▸ hcb)
        exact hparted ⟨c, hc, a, ha, b, hb, hcb, hapart.symm, hab,
          lt_of_not_lt hnot (h.ne_name hc ha hne), hlt⟩
      · exact hnot (List.lt_trans hlt hlt')

/-- A finite menu is sorted by a relation that orders it. -/
theorem exists_sorted {α : Type} [DecidableEq α] (menu : List α) (hnodup : menu.Nodup)
    (r : α → α → Prop) [DecidableRel r]
    (htotal : ∀ a ∈ menu, ∀ b ∈ menu, a ≠ b → r a b ∨ r b a)
    (htrans : ∀ a ∈ menu, ∀ b ∈ menu, ∀ c ∈ menu, r a b → r b c → r a c) :
    ∃ l : List α, l.Perm menu ∧ l.Pairwise r := by
  -- a preorder on the members, made reflexive for the sort
  let le (x y : { a // a ∈ menu }) : Bool := decide (x = y ∨ r x.1 y.1)
  have hle_trans : ∀ x y z, le x y = true → le y z = true → le x z = true := by
    intro x y z hxy hyz
    rw [decide_eq_true_eq] at hxy hyz ⊢
    rcases hxy with rfl | hxy
    · exact hyz
    · rcases hyz with rfl | hyz
      · exact .inr hxy
      · exact .inr (htrans _ x.2 _ y.2 _ z.2 hxy hyz)
  have hle_total : ∀ x y, (le x y || le y x) = true := by
    intro x y
    rw [Bool.or_eq_true, decide_eq_true_eq, decide_eq_true_eq]
    by_cases heq : x = y
    · exact .inl (.inl heq)
    · rcases htotal _ x.2 _ y.2 fun hval => heq (Subtype.ext hval) with hr | hr
      · exact .inl (.inr hr)
      · exact .inr (.inr hr)
  have hperm := List.mergeSort_perm menu.attach le
  have hsorted := List.pairwise_mergeSort hle_trans hle_total menu.attach
  have hdistinct : (menu.attach.mergeSort le).Nodup :=
    hperm.nodup_iff.mpr (List.nodup_attach.mpr hnodup)
  refine ⟨(menu.attach.mergeSort le).map Subtype.val, ?_, ?_⟩
  · have hmap := hperm.map Subtype.val
    rwa [List.attach_map_subtype_val] at hmap
  · rw [List.pairwise_map]
    refine (hsorted.and hdistinct).imp fun {x y} hxy => ?_
    rcases of_decide_eq_true hxy.1 with heq | hr
    · exact absurd heq hxy.2
    · exact hr

/-- The comparison orders the menu exactly if no package stands between two others. -/
theorem ordered_iff {menu : List Pkg} (h : Menu vpackage menu) :
    Ordered vpackage menu ↔ ¬Parted vpackage menu := by
  constructor
  -- two parted packages with one between them break transitivity
  · intro hordered hparted
    obtain ⟨a, ha, b, hb, c, hc, hab, hbc, hnot⟩ := h.not_trans hparted
    exact hnot (hordered.trans a ha b hb c hc hab hbc)
  -- with no such pair the comparison is a strict order of the menu, so it has one sorting
  · intro hparted
    have hanti : ∀ a ∈ menu, ∀ b ∈ menu, menuCmp vpackage b a = -menuCmp vpackage a b :=
      fun a ha b hb => h.menuCmp_swap ha hb
    have htotal : ∀ a ∈ menu, ∀ b ∈ menu, a ≠ b →
        menuCmp vpackage a b < 0 ∨ menuCmp vpackage b a < 0 :=
      fun a ha b hb hne => h.total ha hb hne
    have htrans : ∀ a ∈ menu, ∀ b ∈ menu, ∀ c ∈ menu, menuCmp vpackage a b < 0 →
        menuCmp vpackage b c < 0 → menuCmp vpackage a c < 0 :=
      fun a ha b hb c hc hab hbc => h.trans hparted ha hb hc hab hbc
    refine ⟨hanti, htotal, htrans, ?_, ?_⟩
    · exact exists_sorted menu h.nodup _ htotal htrans
    · intro l hperm hsorted
      refine hsorted.imp_of_mem fun {a b} ha hb hlt hab => ?_
      rw [h.menuCmp_of_dependsOn (hperm.mem_iff.mp ha) (hperm.mem_iff.mp hb) hab] at hlt
      exact absurd hlt (by decide)

/-! ### A menu that is not ordered -/

/-- The first of three packages depends on the last one. -/
def sampleMenu : List Pkg := [⟨[0x61], [], [[0x63]]⟩, ⟨[0x62], [], []⟩, ⟨[0x63], [], []⟩]

def sampleVpackage : List (Text × List Pkg) := sampleMenu.map fun p => (p.name, [p])

/-- The packages of the examples are a menu. -/
theorem sampleMenu_menu : Menu sampleVpackage sampleMenu where
  distinct := by
    unfold Distinct
    decide
  mem := by decide
  nodup := by decide
  submenu := by decide
  -- no package is found from itself
  acyclic := by
    have hdistinct : Distinct sampleVpackage := by
      unfold Distinct
      decide
    intro p hp
    have hmem : ∀ p ∈ sampleMenu, p ∈ packages sampleVpackage := by decide
    rw [← findPackageDep_iff_dependsOn hdistinct p (hmem p hp)]
    revert p
    decide

/-- A package comes by name between two that depend on each other. -/
theorem sampleMenu_parted : Parted sampleVpackage sampleMenu := by
  have hdistinct := sampleMenu_menu.distinct
  have hmem := sampleMenu_menu.mem
  have hiff := fun p {q} hq => findPackageDep_iff_dependsOn (q := q) hdistinct p (hmem q hq)
  refine ⟨_, .head _, _, .tail _ (.head _), _, .tail _ (.tail _ (.head _)),
    ?_, ⟨?_, ?_⟩, ⟨?_, ?_⟩, ?_, ?_⟩
  · exact (hiff _ (by decide)).mp (by decide)
  -- the others do not depend on each other
  · exact mt (hiff _ (by decide)).mpr (by decide)
  · exact mt (hiff _ (by decide)).mpr (by decide)
  · exact mt (hiff _ (by decide)).mpr (by decide)
  · exact mt (hiff _ (by decide)).mpr (by decide)
  · decide
  · decide

/-- The comparison does not order them. -/
theorem sampleMenu_not_ordered :
    Menu sampleVpackage sampleMenu ∧ ¬Ordered sampleVpackage sampleMenu := by
  refine ⟨sampleMenu_menu, fun hordered => ?_⟩
  obtain ⟨a, ha, b, hb, c, hc, hab, hbc, hnot⟩ := sampleMenu_menu.not_trans sampleMenu_parted
  exact hnot (hordered.trans a ha b hb c hc hab hbc)

/-- They are a menu that is not ordered, as they meet the condition. -/
theorem ordered_iff_sampleMenu : Menu sampleVpackage sampleMenu ∧
    (Ordered sampleVpackage sampleMenu ↔ ¬Parted sampleVpackage sampleMenu) :=
  ⟨sampleMenu_menu, ordered_iff sampleMenu_menu⟩

end HandsomeMod.Native.PackageMetadata
