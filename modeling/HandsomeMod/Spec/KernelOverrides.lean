import HandsomeMod.Native.PackageMetadata

/-!
# Kernel options of packages

For packages that ask for a kernel option alone, as `y` or as `m`, what `gen_kconfig_overrides` prints is
determined by what they ask for, in any order.
-/

namespace HandsomeMod.Native.PackageMetadata

open ForStd

/-! ### What packages ask for -/

/-- An option is `SYM`, `SYM=y` or `SYM=m`, without a version. -/
def Plain (config : Text) : Prop :=
  ∃ sym : Text, sym ≠ [] ∧ 0x3d ∉ sym ∧ 0x40 ∉ sym ∧
    (config = sym ∨ config = sym ++ ascii "=y" ∨ config = sym ++ ascii "=m")

/-- The lines of a package, up to the next one. -/
structure Section where
  head : Text
  rest : List Text
  isPackage : (matchPackage head).isSome = true
  noNewline : ∀ line ∈ head :: rest, 0x0a ∉ line
  plain : ∀ line ∈ head :: rest, ∀ value, matchKernelConfig line = some value →
    ∀ config ∈ splitSpaces value, Plain config

/-- The file with the packages. -/
def packageInfo (packages : List Section) : Text :=
  (packages.flatMap fun s => s.head :: s.rest).flatMap fun line => line ++ [0x0a]

/-- The options that lines ask for, and whether the package that asks is selected. -/
def askedLines (cfgfile package : Text) : List Text → List (Bool × Text)
  | [] => []
  | line :: lines =>
    let package := (matchPackage line).getD package
    ((matchKernelConfig line).elim [] splitSpaces).map (fun config => (selects cfgfile package, config)) ++
      askedLines cfgfile package lines

/-- The options that packages ask for. -/
def asked (cfgfile : Text) (packages : List Section) : List (Bool × Text) :=
  packages.flatMap fun s => askedLines cfgfile [] (s.head :: s.rest)

/-- The larger one of the values that selected packages ask for, `n` if there is none and another
    package names the symbol alone. -/
def requested (asked : List (Bool × Text)) (sym : Text) : Option Text :=
  if (true, sym ++ ascii "=y") ∈ asked then some (ascii "y")
  else if (true, sym ++ ascii "=m") ∈ asked ∨ (true, sym) ∈ asked then some (ascii "m")
  else if (false, sym) ∈ asked then some (ascii "n")
  else none

/-! ### Options -/

section Option

variable {sym : Text}

/-- An option without `=` has no value. -/
private theorem splitOption_of_notMem (h : 0x3d ∉ sym) : splitOption sym = (sym, none) := by
  have hnone : lazySplit (ascii "=") (fun val => !val.isEmpty) sym = none := by
    by_contra hsome
    obtain ⟨⟨pre, post⟩, hsplit⟩ := Option.ne_none_iff_exists'.mp hsome
    obtain ⟨hparts, -⟩ := lazySplit_spec hsplit
    refine h ?_
    rw [hparts]
    exact List.mem_append_right _ List.mem_cons_self
  rw [splitOption, hnone]

/-- An option with `=` has the value behind it. -/
private theorem splitOption_append (hne : sym ≠ []) (h : 0x3d ∉ sym) {val : Text} (hval : val ≠ [])
    :
    splitOption (sym ++ (ascii "=" ++ val)) = (sym, some val) := by
  have hsome : lazySplit (ascii "=") (fun val => !val.isEmpty) (sym ++ (ascii "=" ++ val)) =
      some (sym, val) := by
    apply lazySplit_append hne
    · simpa using hval
    -- an earlier place would be an equals sign in the symbol
    · intro i _ hi hprefix
      rw [List.drop_append_of_le_length hi.le] at hprefix
      obtain ⟨c, rest, hdrop⟩ := List.exists_cons_of_ne_nil (List.ne_nil_of_length_pos
        (by rw [List.length_drop]; omega : 0 < (sym.drop i).length))
      rw [hdrop] at hprefix
      obtain ⟨rfl, -⟩ := List.cons_prefix_cons.mp hprefix
      exact h (List.mem_of_mem_drop (by rw [hdrop]; exact List.mem_cons_self))
  rw [splitOption, hsome]

/-- What a plain option is split into. -/
private theorem splitOption_of_plain {config : Text} (h : Plain config) :
    ∃ sym val, splitOption config = (sym, val) ∧ sym ≠ [] ∧ 0x3d ∉ sym ∧
      (val = none ∧ config = sym ∨ val = some (ascii "y") ∧ config = sym ++ ascii "=y" ∨
        val = some (ascii "m") ∧ config = sym ++ ascii "=m") := by
  obtain ⟨sym, hne, heq, -, rfl | rfl | rfl⟩ := h
  · exact ⟨config, none, splitOption_of_notMem heq, hne, heq, .inl ⟨rfl, rfl⟩⟩
  · exact ⟨sym, _, splitOption_append hne heq (by decide : ascii "y" ≠ []), hne, heq,
      .inr (.inl ⟨rfl, rfl⟩)⟩
  · exact ⟨sym, _, splitOption_append hne heq (by decide : ascii "m" ≠ []), hne, heq,
      .inr (.inr ⟨rfl, rfl⟩)⟩

/-- Without a version, nothing is filtered. -/
private theorem filterItem_of_notMem {config : Text} (h : 0x40 ∉ config) (cmpver : Nat) :
    filterItem cmpver config = some config := by
  -- a tag starts with `@`
  have hnone : matchTag config = none := by
    rw [matchTag, List.findSome?_eq_none_iff]
    intro i _
    cases htail : config.drop i with
    | nil => rfl
    | cons c tail =>
      have hc : c ≠ 0x40 := by
        rintro rfl
        exact h (List.mem_of_mem_drop (by rw [htail]; exact List.mem_cons_self))
      unfold tagAt
      split
      · rename_i heq
        exact absurd (List.cons.inj heq).1 hc
      · rfl
  rw [filterItem, hnone]

/-- A plain option has no version to filter by. -/
private theorem versionFilterList_of_plain (patchver : Option Text) {items : List Text}
    (h : ∀ config ∈ items, Plain config) : versionFilterList patchver items = items := by
  rw [versionFilterList]
  calc items.filterMap (filterItem (versionToNum patchver)) = items.filterMap some := by
        refine List.filterMap_congr fun config hconfig => filterItem_of_notMem ?_ _
        obtain ⟨sym, -, -, hat, rfl | rfl | rfl⟩ := h config hconfig
        · exact hat
        · simpa [hat] using (by decide : (0x40 : UInt8) ∉ ascii "=y")
        · simpa [hat] using (by decide : (0x40 : UInt8) ∉ ascii "=m")
    _ = items := List.filterMap_some

end Option

/-! ### One option after the other -/

/-- What is asked for a symbol; nothing is selected for the symbol `n`. -/
def result (asked : List (Bool × Text)) (sym : Text) : Option Text :=
  requested (asked.map fun a => (a.1 && decide (sym ≠ ascii "n"), a.2)) sym

/-- The table gives each symbol what is asked for it. -/
structure Table (asked : List (Bool × Text)) (kconfig : Overrides) : Prop where
  nodup : (Assoc.keys kconfig).Nodup
  gives : ∀ sym, 0x3d ∉ sym → kconfig.lookup sym = result asked sym
  others : ∀ sym, 0x3d ∈ sym → kconfig.lookup sym = none

/-- At first nothing is asked for and nothing in the table. -/
private theorem table_nil : Table [] [] where
  nodup := List.nodup_nil
  gives _ _ := by simp [result, requested]
  others _ _ := rfl

/-- What stands behind the symbol of a plain option. -/
def suffixes : List Text := [[], ascii "=y", ascii "=m"]

/-- A plain option tells its symbol. -/
private theorem append_suffix_inj {s t u v : Text} (hs : 0x3d ∉ s) (ht : 0x3d ∉ t)
    (hu : u ∈ suffixes)
    (hv : v ∈ suffixes) : s ++ u = t ++ v ↔ s = t ∧ u = v := by
  -- the symbol is what stands before the first equals sign
  have htake {s u : Text} (hs : 0x3d ∉ s) (hu : u ∈ suffixes) : (s ++ u).takeWhile (· ≠ 0x3d) = s := by
    have hall : ∀ c ∈ s, decide (c ≠ 0x3d) = true := by
      intro c hc
      rw [decide_eq_true_eq]
      rintro rfl
      exact hs hc
    rw [List.takeWhile_append_of_pos hall]
    simp only [suffixes, List.mem_cons, List.not_mem_nil, or_false] at hu
    rcases hu with rfl | rfl | rfl <;> exact List.append_nil s
  constructor
  · intro heq
    have hst : s = t := by rw [← htake hs hu, heq, htake ht hv]
    subst hst
    exact ⟨rfl, List.append_cancel_left heq⟩
  · rintro ⟨rfl, rfl⟩
    rfl

section Step

variable {asked : List (Bool × Text)} {kconfig : Overrides} {sym sym' suffix : Text}

/-- An option with another symbol does not count. -/
private theorem result_append_of_ne (hsym : 0x3d ∉ sym) (hsym' : 0x3d ∉ sym')
    (hsuffix : suffix ∈ suffixes)
    (hne : sym ≠ sym') (selected : Bool) :
    result (asked ++ [(selected, sym' ++ suffix)]) sym = result asked sym := by
  have hother (b : Bool) {u : Text} (hu : u ∈ suffixes) :
      ((b, sym ++ u) ∈ (asked ++ [(selected, sym' ++ suffix)]).map
        fun a => (a.1 && decide (sym ≠ ascii "n"), a.2)) ↔
        (b, sym ++ u) ∈ asked.map fun a => (a.1 && decide (sym ≠ ascii "n"), a.2) := by
    rw [List.map_append, List.mem_append, or_iff_left]
    rw [List.map_singleton, List.mem_singleton, Prod.mk.injEq, append_suffix_inj hsym hsym' hu hsuffix]
    exact fun h => hne h.2.1
  have hnil (b : Bool) := hother b (u := []) (by decide)
  simp only [List.append_nil] at hnil
  simp only [result, requested, hother true (u := ascii "=y") (by decide),
    hother true (u := ascii "=m") (by decide), hnil]

/-- One more option with the symbol counts with its value. -/
private theorem requested_of_mem {l l' : List (Bool × Text)} {selected : Bool}
    (hsuffix : suffix ∈ suffixes)
    (hmem : ∀ b, ∀ u ∈ suffixes,
      (b, sym ++ u) ∈ l' ↔ (b, sym ++ u) ∈ l ∨ b = selected ∧ u = suffix) :
    requested l' sym =
      if selected then
        if requested l sym = some (ascii "y") ∨ suffix = ascii "=y" then some (ascii "y")
        else some (ascii "m")
      else if suffix = [] ∧ requested l sym = none then some (ascii "n")
      else requested l sym := by
  have hy (b : Bool) := hmem b (ascii "=y") (by decide)
  have hm (b : Bool) := hmem b (ascii "=m") (by decide)
  have halone (b : Bool) := hmem b [] (by decide)
  simp only [List.append_nil] at halone
  have hsuffix' : suffix = [] ∨ suffix = ascii "=y" ∨ suffix = ascii "=m" := by
    simpa [suffixes] using hsuffix
  have hmy : ascii "m" ≠ ascii "y" := by decide
  have hny : ascii "n" ≠ ascii "y" := by decide
  -- Only which of the four options of the symbol are in `l` matters from here on.
  simp only [requested, hy, hm, halone]
  clear hmem hsuffix hy hm halone
  cases selected with
  | true =>
    have hym : ascii "=y" ≠ ascii "=m" := by decide
    have hyn : ascii "=y" ≠ [] := by decide
    have hmn : ascii "=m" ≠ [] := by decide
    by_cases hY : (true, sym ++ ascii "=y") ∈ l
    · rcases hsuffix' with rfl | rfl | rfl <;> simp [hY]
    · by_cases hM : (true, sym ++ ascii "=m") ∈ l ∨ (true, sym) ∈ l
      · rcases hsuffix' with rfl | rfl | rfl <;> simp [hY, hM, hmy, hym, hym.symm, hyn, hyn.symm]
      · rw [not_or] at hM
        rcases hsuffix' with rfl | rfl | rfl <;>
          by_cases hN : (false, sym) ∈ l <;> simp [hY, hM, hN, hny, hym, hym.symm, hyn, hyn.symm, hmn]
  | false =>
    by_cases hY : (true, sym ++ ascii "=y") ∈ l
    · simp [hY]
    · by_cases hM : (true, sym ++ ascii "=m") ∈ l ∨ (true, sym) ∈ l
      · simp [hY, hM]
      · rw [not_or] at hM
        by_cases hN : (false, sym) ∈ l <;> simp [hY, hM, hN, eq_comm]

/-- An option with this symbol counts with its value. -/
private theorem result_append_self (asked : List (Bool × Text)) (hsym : 0x3d ∉ sym)
    (hsuffix : suffix ∈ suffixes) (selected : Bool) :
    result (asked ++ [(selected, sym ++ suffix)]) sym =
      if selected && decide (sym ≠ ascii "n") then
        if result asked sym = some (ascii "y") ∨ suffix = ascii "=y" then some (ascii "y")
        else some (ascii "m")
      else if suffix = [] ∧ result asked sym = none then some (ascii "n")
      else result asked sym := by
  refine requested_of_mem hsuffix fun b u hu => ?_
  rw [List.map_append, List.mem_append, List.map_singleton, List.mem_singleton, Prod.mk.injEq,
    append_suffix_inj hsym hsym hu hsuffix]
  exact or_congr_right (and_congr_right fun _ => and_iff_right rfl)

/-- A table that stays counts an option whose symbol already has what is asked for. -/
theorem Table.keep (h : Table asked kconfig) (hsym : 0x3d ∉ sym) (hsuffix : suffix ∈ suffixes)
    {selected : Bool} (hsame : result (asked ++ [(selected, sym ++ suffix)]) sym = result asked sym) :
    Table (asked ++ [(selected, sym ++ suffix)]) kconfig where
  nodup := h.nodup
  gives sym' hsym' := by
    rw [h.gives sym' hsym']
    by_cases heq : sym' = sym
    · rw [heq, hsame]
    · rw [result_append_of_ne hsym' hsym hsuffix heq]
  others := h.others

/-- A table in which the symbol gets a value counts an option that asks for this value. -/
theorem Table.put (h : Table asked kconfig) (hsym : 0x3d ∉ sym) (hsuffix : suffix ∈ suffixes)
    {selected : Bool} {val : Text} (hval : result (asked ++ [(selected, sym ++ suffix)]) sym = some val) :
    Table (asked ++ [(selected, sym ++ suffix)]) (Assoc.put sym val kconfig) where
  nodup := Assoc.nodup_put h.nodup sym val
  gives sym' hsym' := by
    rw [Assoc.lookup_put]
    by_cases heq : sym' = sym
    · rw [if_pos heq, heq, hval]
    · rw [if_neg heq, h.gives sym' hsym', result_append_of_ne hsym' hsym hsuffix heq]
  others sym' hsym' := by
    rw [Assoc.lookup_put, if_neg, h.others sym' hsym']
    rintro rfl
    exact hsym hsym'

/-- A plain option keeps the table right. -/
theorem Table.overrideOption (h : Table asked kconfig) {config : Text} (hconfig : Plain config)
    (selected : Bool) : Table (asked ++ [(selected, config)]) (overrideOption selected kconfig config) := by
  obtain ⟨sym, val, hsplit, -, hsym, hval⟩ := splitOption_of_plain hconfig
  -- an option asks for `y` with that suffix, for `m` without it or with the other one
  have hsuffix : ∃ suffix ∈ suffixes, config = sym ++ suffix ∧ (suffix = [] ↔ val = none) ∧
      val.getD (ascii "m") = if suffix = ascii "=y" then ascii "y" else ascii "m" := by
    rcases hval with ⟨rfl, rfl⟩ | ⟨rfl, rfl⟩ | ⟨rfl, rfl⟩
    · exact ⟨[], by decide, (List.append_nil _).symm, by decide, by decide⟩
    · exact ⟨ascii "=y", by decide, rfl, by decide, by decide⟩
    · exact ⟨ascii "=m", by decide, rfl, by decide, by decide⟩
  obtain ⟨suffix, hsuffix, rfl, hnil, hget⟩ := hsuffix
  have hresult := result_append_self asked hsym hsuffix selected
  simp only [PackageMetadata.overrideOption, hsplit, h.gives sym hsym]
  -- a selected package sets the symbol, one not selected only turns it off where nothing is set
  by_cases hsel : selected = true ∧ sym ≠ ascii "n"
  · rw [if_pos hsel]
    have hsel' : (selected && decide (sym ≠ ascii "n")) = true := by simpa using hsel
    rw [if_pos hsel'] at hresult
    split
    · rename_i hy
      rw [if_pos (Or.inl hy)] at hresult
      exact h.keep hsym hsuffix (hresult.trans hy.symm)
    · rename_i hy
      refine h.put hsym hsuffix (hresult.trans ?_)
      rw [hget]
      by_cases hsuf : suffix = ascii "=y"
      · rw [if_pos (Or.inr hsuf), if_pos hsuf]
      · rw [if_neg (not_or.mpr ⟨hy, hsuf⟩), if_neg hsuf]
  · rw [if_neg hsel]
    have hsel' : ¬(selected && decide (sym ≠ ascii "n")) = true := by simpa using hsel
    rw [if_neg hsel'] at hresult
    -- Each value that a symbol can have is true.
    have htruthy : (result asked sym).any truthy = (result asked sym).isSome := by
      rw [result, requested]
      split
      · decide
      · split
        · decide
        · split <;> decide
    rw [htruthy]
    split
    · rename_i hnew
      obtain ⟨hnone, hunset⟩ := hnew
      refine h.put hsym hsuffix (hresult.trans (if_pos ⟨?_, ?_⟩))
      · exact hnil.mpr (Option.isNone_iff_eq_none.mp hnone)
      · simpa using hunset
    · rename_i hold
      refine h.keep hsym hsuffix (hresult.trans (if_neg fun hnew => hold ⟨?_, ?_⟩))
      · rw [hnil.mp hnew.1]
        rfl
      · rw [hnew.2]
        decide

end Step

/-! ### Files -/

/-- The options of lines, one after the other. -/
theorem Table.foldl_overrideOption {asked : List (Bool × Text)} {kconfig : Overrides}
    (h : Table asked kconfig) (selected : Bool) {items : List Text}
    (hitems : ∀ config ∈ items, Plain config) :
    Table (asked ++ items.map fun config => (selected, config))
      (items.foldl (PackageMetadata.overrideOption selected) kconfig) := by
  induction items generalizing asked kconfig with
  | nil => simpa using h
  | cons config items ih =>
    rw [List.map_cons, List.append_cons, List.foldl_cons]
    exact ih (h.overrideOption (hitems config List.mem_cons_self) selected)
      fun config' hconfig' => hitems config' (List.mem_cons_of_mem _ hconfig')

/-- The lines of a package keep the table right. -/
theorem Table.foldl_overrideLine (cfgfile : Text) (patchver : Option Text) {asked : List (Bool × Text)}
    {kconfig : Overrides} (h : Table asked kconfig) (package : Text) {lines : List Text}
    (hlines : ∀ line ∈ lines, ∀ value, matchKernelConfig line = some value →
      ∀ config ∈ splitSpaces value, Plain config) :
    Table (asked ++ askedLines cfgfile package lines)
      (lines.foldl (overrideLine cfgfile patchver) (package, kconfig)).2 := by
  induction lines generalizing asked kconfig package with
  | nil => simpa [askedLines] using h
  | cons line lines ih =>
    have hrest : ∀ line' ∈ lines, ∀ value, matchKernelConfig line' = some value →
        ∀ config ∈ splitSpaces value, Plain config :=
      fun line' hline' => hlines line' (List.mem_cons_of_mem _ hline')
    rw [List.foldl_cons, askedLines, overrideLine]
    cases hvalue : matchKernelConfig line with
    | none => exact ih h _ hrest
    | some value =>
      have hitems := hlines line List.mem_cons_self value hvalue
      simp only [Option.elim_some]
      -- plain options have no version tag, so none is filtered out
      rw [versionFilterList_of_plain patchver hitems, ← List.append_assoc]
      exact ih (h.foldl_overrideOption _ hitems) _ hrest

/-- The lines of the file are those of the packages. -/
private theorem map_chomp_fileLines (packages : List Section) :
    (fileLines (packageInfo packages)).map chomp = packages.flatMap fun s => s.head :: s.rest := by
  have hlines : ∀ line ∈ packages.flatMap fun s => s.head :: s.rest, 0x0a ∉ line := by
    intro line hline
    obtain ⟨s, -, hline⟩ := List.mem_flatMap.mp hline
    exact s.noNewline line hline
  rw [packageInfo]
  generalize packages.flatMap (fun s => s.head :: s.rest) = lines at hlines
  rw [fileLines]
  simp only [splitOn_flatMap hlines, List.dropLast_concat, List.getLast?_concat]
  have hchomp (line : Text) : chomp (line ++ [0x0a]) = line := by simp [chomp]
  simp [Function.comp_def, hchomp]

/-- What two parts of a file ask for. -/
private theorem askedLines_append (cfgfile package : Text) (lines lines' : List Text) :
    ∃ package', askedLines cfgfile package (lines ++ lines') =
      askedLines cfgfile package lines ++ askedLines cfgfile package' lines' := by
  induction lines generalizing package with
  | nil => exact ⟨package, rfl⟩
  | cons line lines ih =>
    obtain ⟨package', hpackage'⟩ := ih ((matchPackage line).getD package)
    refine ⟨package', ?_⟩
    rw [List.cons_append, askedLines, askedLines, hpackage', List.append_assoc]

/-- A package asks for the same whatever is in front of it. -/
private theorem askedLines_flatMap (cfgfile package : Text) (packages : List Section) :
    askedLines cfgfile package (packages.flatMap fun s => s.head :: s.rest) = asked cfgfile packages := by
  induction packages generalizing package with
  | nil => rfl
  | cons s packages ih =>
    obtain ⟨package', hpackage'⟩ := askedLines_append cfgfile package (s.head :: s.rest)
      (packages.flatMap fun s => s.head :: s.rest)
    have hhead : askedLines cfgfile package (s.head :: s.rest) = askedLines cfgfile [] (s.head :: s.rest) := by
      obtain ⟨name, hname⟩ := Option.isSome_iff_exists.mp s.isPackage
      rw [askedLines, askedLines, hname, Option.getD_some, Option.getD_some]
    rw [List.flatMap_cons, hpackage', ih, hhead, asked, asked, List.flatMap_cons]

/-- The table that the loop over the packages makes is right. -/
theorem table_kconfigOverrides (cfgfile : Text) (patchver : Option Text) (packages : List Section) :
    Table (asked cfgfile packages) (kconfigOverrides (packageInfo packages) cfgfile patchver) := by
  rw [kconfigOverrides, map_chomp_fileLines, ← askedLines_flatMap cfgfile [] packages]
  refine table_nil.foldl_overrideLine cfgfile patchver [] fun line hline => ?_
  obtain ⟨s, -, hline⟩ := List.mem_flatMap.mp hline
  exact s.plain line hline

/-- What is printed depends on the values of the symbols only. -/
theorem printOverrides_congr {kconfig kconfig' : Overrides} (h : (Assoc.keys kconfig).Nodup)
    (h' : (Assoc.keys kconfig').Nodup) (heq : ∀ sym, kconfig.lookup sym = kconfig'.lookup sym) :
    printOverrides kconfig = printOverrides kconfig' := by
  have hmem (sym : Text) : sym ∈ Assoc.keys kconfig ↔ sym ∈ Assoc.keys kconfig' := by
    rw [← not_iff_not, ← Assoc.lookup_eq_none, ← Assoc.lookup_eq_none, heq]
  have hperm := (List.perm_ext_iff_of_nodup h h').mpr hmem
  have hsort (l : List Text) : (l.mergeSort fun a b => decide (a ≤ b)).Pairwise (· ≤ ·) := by
    have hle : (l.mergeSort fun a b => decide (a ≤ b)).Pairwise fun a b => decide (a ≤ b) = true := by
      apply List.pairwise_mergeSort
      · intro a b c hab hbc
        exact decide_eq_true (List.le_trans (of_decide_eq_true hab) (of_decide_eq_true hbc))
      · intro a b
        rw [Bool.or_eq_true, decide_eq_true_eq, decide_eq_true_eq]
        exact List.le_total a b
    exact hle.imp of_decide_eq_true
  -- a sorted list is determined by its elements
  have hkeys : ((Assoc.keys kconfig).mergeSort fun a b => decide (a ≤ b)) =
      (Assoc.keys kconfig').mergeSort fun a b => decide (a ≤ b) :=
    ((List.mergeSort_perm _ _).trans (hperm.trans (List.mergeSort_perm _ _).symm)).eq_of_pairwise
      (fun a b _ _ hab hba => List.le_antisymm hab hba) (hsort _) (hsort _)
  rw [printOverrides, printOverrides, hkeys]
  simp only [heq]

/-- Each symbol gets what is asked for it, the symbol `n` as if no package was selected, and the order of
    the packages does not matter. -/
theorem genKconfigOverrides_asked (cfgfile : Text) (patchver : Option Text) (packages : List Section) :
    (∀ sym, 0x3d ∉ sym → sym ≠ ascii "n" →
      (kconfigOverrides (packageInfo packages) cfgfile patchver).lookup sym =
        requested (asked cfgfile packages) sym) ∧
    (kconfigOverrides (packageInfo packages) cfgfile patchver).lookup (ascii "n") =
      (if ∃ selected, (selected, ascii "n") ∈ asked cfgfile packages then some (ascii "n") else none) ∧
    (∀ sym, 0x3d ∈ sym → (kconfigOverrides (packageInfo packages) cfgfile patchver).lookup sym = none) ∧
    ∀ packages', packages'.Perm packages →
      genKconfigOverrides (some (packageInfo packages')) (some cfgfile) patchver =
        genKconfigOverrides (some (packageInfo packages)) (some cfgfile) patchver := by
  have htable := table_kconfigOverrides cfgfile patchver packages
  refine ⟨?_, ?_, htable.others, ?_⟩
  · intro sym hsym hne
    rw [htable.gives sym hsym, result]
    simp [hne]
  · rw [htable.gives _ (by decide), result, requested]
    simp
  -- the requests are counted, not ordered
  · intro packages' hperm
    have htable' := table_kconfigOverrides cfgfile patchver packages'
    have hasked : (asked cfgfile packages').Perm (asked cfgfile packages) := hperm.flatMap_right _
    refine printOverrides_congr htable'.nodup htable.nodup fun sym => ?_
    by_cases hsym : 0x3d ∈ sym
    · rw [htable.others sym hsym, htable'.others sym hsym]
    · rw [htable.gives sym hsym, htable'.gives sym hsym, result, result, requested, requested]
      simp only [(hasked.map _).mem_iff]

/-- The options of a package with one line of them, and one option in it. -/
private theorem plain_pair {head line config : Text} (value : Text) (hhead : matchKernelConfig head = none)
    (hline : matchKernelConfig line = some value) (hsplit : splitSpaces value = [config])
    (hplain : Plain config) : ∀ l ∈ [head, line], ∀ v, matchKernelConfig l = some v →
      ∀ c ∈ splitSpaces v, Plain c := by
  intro l hl v hv c hc
  rcases List.mem_pair.mp hl with rfl | rfl
  · rw [hhead] at hv
    cases hv
  · rw [hline] at hv
    cases hv
    rw [hsplit, List.mem_singleton] at hc
    rwa [hc]

/-- `n` is a plain option. -/
private theorem plain_symbolN : Plain (ascii "n") :=
  ⟨ascii "n", by decide, by decide, by decide, .inl rfl⟩

/-- A package whose only option is the symbol `n`. -/
def symbolN : Section where
  head := ascii "Package: a"
  rest := [ascii "Kernel-Config: n"]
  isPackage := by decide
  noNewline := by decide
  plain := plain_pair (ascii "n") (by decide) (by decide) (by decide) plain_symbolN

/-- The symbol `n` is not set although its package is selected. -/
theorem symbolN_not_requested : ¬∀ (cfgfile : Text) (patchver : Option Text) (packages : List Section)
    (sym : Text), 0x3d ∉ sym →
      (kconfigOverrides (packageInfo packages) cfgfile patchver).lookup sym =
        requested (asked cfgfile packages) sym := by
  intro hall
  exact absurd (hall (ascii "CONFIG_PACKAGE_a=y") none [symbolN] (ascii "n") (by decide)) (by decide)

/-- `A=y` is a plain option. -/
private theorem plain_asksY : Plain (ascii "A=y") :=
  ⟨ascii "A", by decide, by decide, by decide, .inr (.inl rfl)⟩

/-- `A=m` is a plain option. -/
private theorem plain_asksM : Plain (ascii "A=m") :=
  ⟨ascii "A", by decide, by decide, by decide, .inr (.inr rfl)⟩

/-- A package that asks for the symbol `A` with the value y. -/
def asksY : Section where
  head := ascii "Package: a"
  rest := [ascii "Kernel-Config: A=y"]
  isPackage := by decide
  noNewline := by decide
  plain := plain_pair (ascii "A=y") (by decide) (by decide) (by decide) plain_asksY

/-- Another one that asks for it with the value m. -/
def asksM : Section where
  head := ascii "Package: b"
  rest := [ascii "Kernel-Config: A=m"]
  isPackage := by decide
  noNewline := by decide
  plain := plain_pair (ascii "A=m") (by decide) (by decide) (by decide) plain_asksM

/-- Both packages are selected. -/
def bothSelected : Text := ascii "CONFIG_PACKAGE_a=y\nCONFIG_PACKAGE_b=m\n"

/-- The larger value is the result in both orders. -/
theorem genKconfigOverrides_asked_both :
    (kconfigOverrides (packageInfo [asksM, asksY]) bothSelected none).lookup (ascii "A") =
      some (ascii "y") ∧
    (kconfigOverrides (packageInfo [asksY, asksM]) bothSelected none).lookup (ascii "A") =
      some (ascii "y") ∧
    genKconfigOverrides (some (packageInfo [asksY, asksM])) (some bothSelected) none =
      genKconfigOverrides (some (packageInfo [asksM, asksY])) (some bothSelected) none := by
  obtain ⟨hgives, -, -, hperm⟩ := genKconfigOverrides_asked bothSelected none [asksM, asksY]
  obtain ⟨hgives', -⟩ := genKconfigOverrides_asked bothSelected none [asksY, asksM]
  refine ⟨?_, ?_, hperm _ (.swap ..)⟩
  · rw [hgives (ascii "A") (by decide) (by decide)]
    decide
  · rw [hgives' (ascii "A") (by decide) (by decide)]
    decide

end HandsomeMod.Native.PackageMetadata
