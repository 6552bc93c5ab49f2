import HandsomeMod.Native.Kconfig

/-!
# Editing a kernel config

What `kconfig.pl` prints is read back as it was, but for symbols that are not set and whose names
hold the text by which such a line ends. So adding to a base config what was changed gives the
edited config again.
-/

namespace HandsomeMod.Native.Kconfig

open ForStd

/-! ### The property -/

/-- The symbol is not set. -/
def Unset (val : Text) : Prop := val = undef ∨ val = ascii "n"

instance (val : Text) : Decidable (Unset val) := inferInstanceAs (Decidable (_ ∨ _))

/-- The value `n` is taken for `#undef`. -/
def norm (val : Text) : Text := if val = ascii "n" then undef else val

/-- The text ` is not set` does not begin behind the first character. -/
def Plain (name : Text) : Prop := ∀ i, 0 < i → ¬notSet <+: name.drop i

/-- Symbols that are not set have plain names. -/
def PlainConfig (config : Config) : Prop :=
  ∀ name val, config.lookup name = some val → Unset val → Plain name

/-- What is printed and read again. -/
def reload (config : Config) : Config := loadConfig (dumpConfig config) false

/-- Expression `expr` of a filter matches a symbol. -/
def Matches (re : Text → Text → Option Bool) (expr name : Text) : Prop :=
  if isPattern expr then re expr name = some true else expr = name

/-- Config `c` has the values of `n` where it should take them, and those of `b` where `n` has
    none. -/
def Edited (take : Text → Prop) (b n c : Config) : Prop :=
  (∀ name val, n.lookup name = some val → take name →
    (c.lookup name).map norm = some (norm val)) ∧
  ∀ name val, n.lookup name = none → b.lookup name = some val →
    (c.lookup name).map norm = some (norm val)

/-! ### Lines -/

/-- What is known of a line that sets a symbol. -/
structure Loaded (name val : Text) : Prop where
  name_ne : name ≠ []
  val_ne : val ≠ []
  newline_name : 10 ∉ name
  newline_val : 10 ∉ val
  plain : 0x3d ∉ name.tail ∨ val = undef ∧ Plain name

/-- What is behind a start makes the line with it. -/
private theorem behind_eq_some {start line rest : Text} (h : behind start line = some rest) :
    line = start ++ rest := by
  rw [behind] at h
  split at h
  · rename_i hprefix
    obtain ⟨rest', rfl⟩ := List.isPrefixOf_iff_prefix.mp hprefix
    obtain rfl := Option.some.inj h
    rw [List.drop_left]
  · cases h

/-- What is behind the start of a line. -/
private theorem behind_append (start rest : Text) : behind start (start ++ rest) = some rest := by
  rw [behind, if_pos (List.isPrefixOf_iff_prefix.mpr (List.prefix_append _ _)), List.drop_left]

/-- A character that is no separator of one character. -/
private theorem not_prefix_singleton {c d : UInt8} {l : Text} (h : c ≠ d) : ¬[c] <+: d :: l := by
  intro hprefix
  exact h (List.cons_prefix_cons.mp hprefix).1

/-- A line that sets a symbol gives a name and value that can be loaded. -/
private theorem loaded_of_matchSet {line name val : Text} (hline : 10 ∉ line)
    (h : matchSet line = some (name, val)) : Loaded name val := by
  rw [matchSet, Option.bind_eq_some_iff] at h
  obtain ⟨rest, hrest, h⟩ := h
  obtain rfl := behind_eq_some hrest
  obtain ⟨rfl, hne, hval, hfirst⟩ := lazySplit_spec h
  simp only [List.mem_append, not_or] at hline
  refine ⟨hne, ?_, hline.2.1, hline.2.2.2, .inl ?_⟩
  -- the value is not empty
  · rintro rfl
    cases hval
  · -- a separator in the name would be found first
    intro hmem
    obtain ⟨i, hi, hget⟩ := List.mem_iff_getElem.mp hmem
    rw [List.length_tail] at hi
    rw [List.getElem_tail] at hget
    have hprefix : ascii "=" <+: (name ++ (ascii "=" ++ val)).drop (i + 1) := by
      rw [List.drop_append_of_le_length (by omega), List.drop_eq_getElem_cons (by omega), hget]
      exact List.cons_prefix_cons.mpr ⟨rfl, List.nil_prefix⟩
    have hrest := hfirst (i + 1) (by omega) (by omega) hprefix
    rw [Bool.not_eq_false', List.isEmpty_iff, List.drop_eq_nil_iff, List.length_append,
      List.length_append] at hrest
    omega

/-- So does a line that says that a symbol is not set. -/
private theorem loaded_of_matchNotSet {line name : Text} (hline : 10 ∉ line)
    (h : matchNotSet line = some name) : Loaded name undef := by
  rw [matchNotSet, Option.map_eq_some_iff] at h
  obtain ⟨⟨pre, post⟩, h, hname⟩ := h
  obtain rfl : pre = name := hname
  rw [Option.bind_eq_some_iff] at h
  obtain ⟨rest, hrest, h⟩ := h
  obtain rfl := behind_eq_some hrest
  obtain ⟨rfl, hne, -, hfirst⟩ := lazySplit_spec h
  simp only [List.mem_append, not_or] at hline
  refine ⟨hne, by decide, hline.2.1, by decide, .inr ⟨rfl, ?_⟩⟩
  -- the text in the name would be found first
  intro i hpos hprefix
  by_cases hi : i < pre.length
  · have hfound := hfirst i hpos hi
      (by rw [List.drop_append_of_le_length (by omega)]; exact hprefix.trans (List.prefix_append _ _))
    cases hfound
  · rw [List.drop_of_length_le (by omega)] at hprefix
    exact absurd (List.prefix_nil.mp hprefix) (by decide)

/-- So does every line. -/
private theorem loaded_of_loadLine {line name val : Text} (hline : 10 ∉ line)
    (h : loadLine line = some (name, val)) : Loaded name val := by
  rw [loadLine] at h
  split at h
  · rename_i hset
    obtain ⟨rfl, rfl⟩ := Prod.mk.inj (Option.some.inj h)
    exact loaded_of_matchSet hline hset
  · rw [Option.map_eq_some_iff] at h
    obtain ⟨name', hnotSet, h⟩ := h
    obtain ⟨rfl, rfl⟩ := Prod.mk.inj h
    exact loaded_of_matchNotSet hline hnotSet

/-- No end of the text begins it, so that a name has no part in it. -/
private theorem notSet_border : ∀ d < notSet.length, 0 < d → ¬notSet.drop d <+: notSet := by
  decide

/-- The text begins behind a plain name first. -/
theorem Plain.not_prefix {name : Text} (h : Plain name) {i : Nat} (hpos : 0 < i)
    (hi : i < name.length) : ¬notSet <+: (name ++ notSet).drop i := by
  rw [List.drop_append_of_le_length (by omega)]
  intro hprefix
  by_cases hlong : notSet.length ≤ (name.drop i).length
  · exact h i hpos (List.prefix_of_prefix_length_le hprefix (List.prefix_append _ _) hlong)
  · -- the rest of the text would begin it
    have hlength : (name.drop i).length = name.length - i := List.length_drop
    obtain ⟨t, ht⟩ := List.prefix_of_prefix_length_le (List.prefix_append (name.drop i) notSet)
      hprefix (by omega)
    have hrest : t <+: notSet := by
      rw [← List.prefix_append_right_inj (name.drop i), ht]
      exact hprefix
    have hdrop : notSet.drop (name.drop i).length = t := by rw [← ht, List.drop_left]
    rw [← hdrop] at hrest
    exact notSet_border _ (by omega) (by omega) hrest

/-- Values that are printed as not set. -/
private theorem norm_of_unset {val : Text} (h : Unset val) : norm val = undef := by
  rw [norm]
  rcases h with rfl | rfl
  · rfl
  · rfl

/-- Other values stay. -/
private theorem norm_of_set {val : Text} (h : ¬Unset val) : norm val = val :=
  if_neg fun hn => h (.inr hn)

/-- The line for a symbol that is not set is read. -/
private theorem loadLine_notSet {name : Text} (hne : name ≠ []) (h : Plain name) :
    loadLine (ascii "# " ++ configPrefix ++ name ++ notSet) = some (name, undef) := by
  have hset : matchSet (ascii "# " ++ configPrefix ++ name ++ notSet) = none := rfl
  rw [loadLine, hset, matchNotSet, List.append_assoc, behind_append]
  have hsplit : lazySplit notSet (fun _ => true) (name ++ (notSet ++ [])) = some (name, []) := by
    apply lazySplit_append hne rfl
    rw [List.append_nil]
    exact fun i hpos hi => h.not_prefix hpos hi
  rw [List.append_nil] at hsplit
  rw [Option.bind_some, hsplit]
  rfl

/-- The line for a symbol that is set is read. -/
private theorem loadLine_set {name val : Text} (hne : name ≠ []) (hval : val ≠ [])
    (htail : 0x3d ∉ name.tail) :
    loadLine (configPrefix ++ name ++ ascii "=" ++ val) = some (name, val) := by
  rw [loadLine, matchSet, List.append_assoc, List.append_assoc, behind_append, Option.bind_some,
    lazySplit_append hne]
  · rw [Bool.not_eq_true', Bool.eq_false_iff, ne_eq, List.isEmpty_iff]
    exact hval
  · intro i hpos hi
    rw [List.drop_append_of_le_length (by omega), List.drop_eq_getElem_cons hi]
    refine not_prefix_singleton fun hget => htail ?_
    have hget : name[i] = 0x3d := hget.symm
    rw [← hget, List.mem_iff_getElem]
    exact ⟨i - 1, by rw [List.length_tail]; omega, by simp [show i - 1 + 1 = i by omega]⟩

/-- The line for a symbol that is not set. -/
private theorem printCfgline_unset {val : Text} (name : Text) (h : Unset val) :
    printCfgline name val = ascii "# " ++ configPrefix ++ name ++ notSet := if_pos h

/-- The line for a symbol that is set. -/
private theorem printCfgline_set {val : Text} (name : Text) (h : ¬Unset val) :
    printCfgline name val = configPrefix ++ name ++ ascii "=" ++ val := if_neg h

/-- A line that is printed is read back. -/
private theorem loadLine_printCfgline {name val : Text} (h : Loaded name val)
    (hplain : Unset val → Plain name) :
    loadLine (printCfgline name val) = some (name, norm val) := by
  by_cases hunset : Unset val
  · rw [printCfgline_unset name hunset, norm_of_unset hunset]
    exact loadLine_notSet h.name_ne (hplain hunset)
  · rw [printCfgline_set name hunset, norm_of_set hunset]
    refine loadLine_set h.name_ne h.val_ne ?_
    rcases h.plain with htail | ⟨hundef, -⟩
    · exact htail
    · exact absurd (.inl hundef) hunset

/-- What is printed for a symbol is one line. -/
private theorem newline_printCfgline {name val : Text} (h : Loaded name val) :
    10 ∉ printCfgline name val := by
  have hname := h.newline_name
  have hval := h.newline_val
  rw [printCfgline]
  split
  · simp only [List.mem_append, not_or]
    exact ⟨⟨⟨by decide, by decide⟩, hname⟩, by decide⟩
  · simp only [List.mem_append, not_or]
    exact ⟨⟨⟨by decide, hname⟩, by decide⟩, hval⟩

/-! ### Hashes -/

/-- `set_config` without `mod_plus` enters the value. -/
private theorem setConfig_false (config : Config) (name val : Text) :
    setConfig config name val false = Assoc.put name val config := by
  rw [setConfig]
  split
  · rfl
  · exact if_pos (.inl Bool.false_ne_true)

/-- `set_config` enters the value or keeps the config. -/
private theorem setConfig_cases (config : Config) (name val : Text) (modPlus : Bool) :
    setConfig config name val modPlus = config ∨
      setConfig config name val modPlus = Assoc.put name val config := by
  rw [setConfig]
  split
  · exact .inr rfl
  · split
    · exact .inr rfl
    · exact .inl rfl

/-- A hash of symbols that were read. -/
structure WellFormed (config : Config) : Prop where
  nodup : (Assoc.keys config).Nodup
  loaded : ∀ name val, config.lookup name = some val → Loaded name val

/-- The empty config is well formed. -/
private theorem wellFormed_nil : WellFormed [] := ⟨List.nodup_nil, fun _ _ h => by cases h⟩

/-- A symbol that can be loaded may be entered. -/
theorem WellFormed.put {config : Config} (h : WellFormed config) {name val : Text}
    (hloaded : Loaded name val) : WellFormed (Assoc.put name val config) := by
  refine ⟨Assoc.nodup_put h.nodup name val, ?_⟩
  intro name' val' hlookup
  rw [Assoc.lookup_put] at hlookup
  split at hlookup
  · rename_i hname
    obtain rfl := Option.some.inj hlookup
    rw [hname]
    exact hloaded
  · exact h.loaded name' val' hlookup

/-- A config that was loaded is well formed. -/
theorem wellFormed_loadConfig (file : Text) (modPlus : Bool) :
    WellFormed (loadConfig file modPlus) := by
  have hlines (line : Text) (h : line ∈ file.splitOn 10) := not_mem_of_mem_splitOn h
  rw [loadConfig]
  generalize file.splitOn 10 = lines at hlines ⊢
  -- every line keeps it
  suffices ∀ config, WellFormed config → WellFormed (lines.foldl (loadNext modPlus) config) from
    this [] wellFormed_nil
  induction lines with
  | nil => exact fun config h => h
  | cons line lines ih =>
    intro config h
    refine ih (fun l hl => hlines l (List.mem_cons_of_mem _ hl)) _ ?_
    rw [loadNext]
    split
    · rename_i name val hline
      have hloaded := loaded_of_loadLine (hlines line List.mem_cons_self) hline
      rcases setConfig_cases config name val modPlus with hset | hset
      · rw [hset]
        exact h
      · rw [hset]
        exact h.put hloaded
    · exact h

/-! ### Reading what was printed -/

/-- Lines that each set one symbol. -/
private theorem lookup_loadLines (line val : Text → Text) {names : List Text}
    (hline : ∀ name ∈ names, loadLine (line name) = some (name, val name)) (config : Config)
    (name : Text) : ((names.map line).foldl (loadNext false) config).lookup name =
      if name ∈ names then some (val name) else config.lookup name := by
  induction names generalizing config with
  | nil => rfl
  | cons first names ih =>
    rw [List.map_cons, List.foldl_cons, ih fun n hn => hline n (List.mem_cons_of_mem _ hn),
      loadNext, hline first List.mem_cons_self]
    simp only [setConfig_false, Assoc.lookup_put, List.mem_cons]
    -- a later line of the same name wins
    by_cases hname : name ∈ names
    · rw [if_pos hname, if_pos (.inr hname)]
    · rw [if_neg hname]
      by_cases hfirst : name = first
      · rw [if_pos hfirst, if_pos (.inl hfirst), hfirst]
      · rw [if_neg hfirst, if_neg (not_or.mpr ⟨hfirst, hname⟩)]

/-- A config is read back as it was, but for `n`. -/
private theorem lookup_reload {config : Config} (h : WellFormed config)
    (hplain : PlainConfig config)
    (name : Text) : (reload config).lookup name = (config.lookup name).map norm := by
  rw [reload, dumpConfig]
  generalize hnames : (Assoc.keys config).mergeSort (fun a b => decide (a ≤ b)) = names
  have hmem (n : Text) : n ∈ names ↔ n ∈ Assoc.keys config := by
    rw [← hnames]
    exact List.mem_mergeSort
  -- the dump goes through the symbols the config has
  have hlookup : ∀ n ∈ names, ∃ val, config.lookup n = some val := by
    intro n hn
    by_contra hnone
    rw [not_exists] at hnone
    exact (Assoc.lookup_eq_none n config).mp (Option.eq_none_iff_forall_ne_some.mpr hnone)
      ((hmem n).mp hn)
  -- the lines are those of the symbols, in order, and an empty one
  have hlines : ∀ l ∈ names.map fun n => printCfgline n ((config.lookup n).getD []), 10 ∉ l := by
    intro l hl
    obtain ⟨n, hn, rfl⟩ := List.mem_map.mp hl
    obtain ⟨val, hval⟩ := hlookup n hn
    rw [hval]
    exact newline_printCfgline (h.loaded n val hval)
  have hsplit := splitOn_flatMap hlines
  rw [List.flatMap_map] at hsplit
  rw [loadConfig, hsplit, List.foldl_append]
  have hend (c : Config) : [[]].foldl (loadNext false) c = c := rfl
  rw [hend, lookup_loadLines _ fun n => norm ((config.lookup n).getD [])]
  · split
    · rename_i hn
      obtain ⟨val, hval⟩ := hlookup name hn
      rw [hval]
      rfl
    · rename_i hn
      rw [(Assoc.lookup_eq_none name config).mpr (mt (hmem name).mpr hn)]
      rfl
  · intro n hn
    obtain ⟨val, hval⟩ := hlookup n hn
    rw [hval]
    exact loadLine_printCfgline (h.loaded n val hval) (hplain n val hval)

/-! ### The operations -/

/-- Entries of a second config go over those of the first. -/
private theorem lookup_foldl_put {l : Config} (h : (Assoc.keys l).Nodup) (config : Config)
    (name : Text) :
    (l.foldl (fun c p => Assoc.put p.1 p.2 c) config).lookup name =
      (l.lookup name).or (config.lookup name) := by
  induction l generalizing config with
  | nil => rfl
  | cons p l ih =>
    obtain ⟨hp, hl⟩ := List.nodup_cons.mp h
    rw [List.foldl_cons, ih hl, Assoc.lookup_put, Assoc.lookup_cons]
    by_cases hname : p.1 = name
    · have hnone := (Assoc.lookup_eq_none name l).mpr (hname ▸ hp)
      rw [if_pos hname.symm, if_pos hname, hnone]
      rfl
    · rw [if_neg fun heq => hname heq.symm, if_neg hname]

/-- `config_add` without `mod_plus` enters both configs. -/
theorem configAdd_false (cfg1 cfg2 : Config) : configAdd cfg1 cfg2 false =
    (cfg1 ++ cfg2).foldl (fun c p => Assoc.put p.1 p.2 c) [] := by
  simp [configAdd]

/-- The second config wins. -/
theorem lookup_configAdd {cfg1 cfg2 : Config} (h1 : WellFormed cfg1) (h2 : WellFormed cfg2)
    (name : Text) :
    (configAdd cfg1 cfg2 false).lookup name = (cfg2.lookup name).or (cfg1.lookup name) := by
  rw [configAdd_false, List.foldl_append, lookup_foldl_put h2.nodup, lookup_foldl_put h1.nodup]
  exact congrArg _ (Option.or_none)

/-- `config_add` of well formed configs is well formed. -/
theorem WellFormed.add {cfg1 cfg2 : Config} (h1 : WellFormed cfg1) (h2 : WellFormed cfg2) :
    WellFormed (configAdd cfg1 cfg2 false) := by
  constructor
  · rw [configAdd_false]
    generalize cfg1 ++ cfg2 = l
    -- the second config is put over the first one, symbol by symbol
    suffices ∀ c : Config, (Assoc.keys c).Nodup →
        (Assoc.keys (l.foldl (fun c p => Assoc.put p.1 p.2 c) c)).Nodup from this [] List.nodup_nil
    induction l with
    | nil => exact fun c h => h
    | cons p l ih => exact fun c h => ih _ (Assoc.nodup_put h p.1 p.2)
  -- the value comes from one of the two
  · intro name val hlookup
    rw [lookup_configAdd h1 h2, Option.or_eq_some_iff] at hlookup
    rcases hlookup with hlookup | ⟨-, hlookup⟩
    · exact h2.loaded name val hlookup
    · exact h1.loaded name val hlookup

/-- A lookup in a part of a config. -/
theorem lookup_filter {l : Config} (h : (Assoc.keys l).Nodup) (p : Text × Text → Bool)
    (name val : Text) :
    (l.filter p).lookup name = some val ↔ l.lookup name = some val ∧ p (name, val) = true := by
  have hfilter : (Assoc.keys (l.filter p)).Nodup :=
    List.Nodup.sublist (List.Sublist.map _ List.filter_sublist) h
  rw [Assoc.lookup_eq_some hfilter, Assoc.lookup_eq_some h, List.mem_filter]

/-- The difference has the symbols of the second config with another value. -/
theorem lookup_configDiff {cfg1 cfg2 : Config} (h : WellFormed cfg2) (name val : Text) :
    (configDiff cfg1 cfg2 false).lookup name = some val ↔
      cfg2.lookup name = some val ∧ cfg1.lookup name ≠ some val := by
  rw [configDiff, lookup_filter h.nodup]
  simp

/-- `config_diff` gives a well formed config. -/
theorem WellFormed.diff {cfg1 cfg2 : Config} (h : WellFormed cfg2) :
    WellFormed (configDiff cfg1 cfg2 false) where
  nodup := List.Nodup.sublist (List.Sublist.map _ List.filter_sublist) h.nodup
  loaded name val hlookup := h.loaded name val ((lookup_configDiff h name val).mp hlookup).1

/-- A lookup where symbols were taken out. -/
private theorem lookup_foldl_del (keys : List Text) {config : Config}
    (h : (Assoc.keys config).Nodup)
    (name : Text) :
    (keys.foldl (fun c key => Assoc.del key c) config).lookup name =
      if name ∈ keys then none else config.lookup name := by
  induction keys generalizing config with
  | nil => rfl
  | cons key keys ih =>
    rw [List.foldl_cons, ih (Assoc.nodup_del h key), Assoc.lookup_del h]
    simp only [List.mem_cons]
    by_cases hname : name ∈ keys
    · rw [if_pos hname, if_pos (.inr hname)]
    · rw [if_neg hname]
      by_cases hkey : name = key
      · rw [if_pos hkey, if_pos (.inl hkey)]
      · rw [if_neg hkey, if_neg (not_or.mpr ⟨hkey, hname⟩)]

/-- No symbol comes twice when some are taken out. -/
private theorem nodup_foldl_del (keys : List Text) {config : Config} (h : (Assoc.keys config).Nodup)
    :
    (Assoc.keys (keys.foldl (fun c key => Assoc.del key c) config)).Nodup := by
  induction keys generalizing config with
  | nil => exact h
  | cons key keys ih => exact ih (Assoc.nodup_del h key)

/-- What `mapM` gives comes from the list. -/
private theorem mem_of_mapM {α β : Type} {f : α → Option β} {l : List α} {r : List β}
    (h : l.mapM f = some r) {b : β} (hb : b ∈ r) : ∃ a ∈ l, f a = some b := by
  induction l generalizing r with
  | nil =>
    obtain rfl := Option.some.inj h
    cases hb
  | cons a l ih =>
    rw [List.mapM_cons, Option.bind_eq_bind, Option.bind_eq_some_iff] at h
    obtain ⟨b', hb', h⟩ := h
    rw [Option.bind_eq_bind, Option.bind_eq_some_iff] at h
    obtain ⟨r', hr', h⟩ := h
    obtain rfl := Option.some.inj h
    rcases List.mem_cons.mp hb with rfl | hb
    · exact ⟨a, List.mem_cons_self, hb'⟩
    · obtain ⟨a', ha', hfa'⟩ := ih hr' hb
      exact ⟨a', List.mem_cons_of_mem _ ha', hfa'⟩

variable {re : Text → Text → Option Bool}

/-- An expression takes away what it matches. -/
private theorem matches_of_matching {config : Config} {expr name : Text} {keys : List Text}
    (h : matching re config expr = some keys) (hname : name ∈ keys) : Matches re expr name := by
  rw [matching] at h
  rw [Matches]
  split at h
  · rename_i hpattern
    rw [if_pos hpattern]
    dsimp only at h
    split at h
    -- a pattern that does not compile
    · cases h
    · obtain rfl := Option.some.inj h
      exact beq_iff_eq.mp (List.mem_filter.mp hname).2
  · rename_i hpattern
    obtain rfl := Option.some.inj h
    rw [if_neg hpattern]
    exact (List.mem_singleton.mp hname).symm

/-- A filter takes away symbols that it matches, and no others. -/
theorem configSub_spec {cfg1 cfg2 config : Config} (h : WellFormed cfg1)
    (hsub : configSub re cfg1 cfg2 = some config) :
    WellFormed config ∧
      (∀ name, config.lookup name = none ∨ config.lookup name = cfg1.lookup name) ∧
      ∀ name, (∀ expr ∈ Assoc.keys cfg2, ¬Matches re expr name) →
        config.lookup name = cfg1.lookup name := by
  rw [configSub, Option.bind_eq_bind, Option.bind_eq_some_iff] at hsub
  obtain ⟨keys, hkeys, hsub⟩ := hsub
  obtain rfl := Option.some.inj hsub
  have hlookup := lookup_foldl_del keys.flatten h.nodup
  have hcases (name : Text) :
      (keys.flatten.foldl (fun c key => Assoc.del key c) cfg1).lookup name = none ∨
        (keys.flatten.foldl (fun c key => Assoc.del key c) cfg1).lookup name =
          cfg1.lookup name := by
    rw [hlookup]
    split
    · exact .inl rfl
    · exact .inr rfl
  refine ⟨⟨nodup_foldl_del keys.flatten h.nodup, ?_⟩, hcases, ?_⟩
  · intro name val hval
    rcases hcases name with hnone | hkept
    · rw [hnone] at hval
      cases hval
    · rw [hkept] at hval
      exact h.loaded name val hval
  -- a removed name was matched by an expression of the second configuration
  · intro name hname
    rw [hlookup, if_neg]
    intro hmem
    obtain ⟨taken, htaken, hmem⟩ := List.mem_flatten.mp hmem
    obtain ⟨expr, hexpr, hmatching⟩ := mem_of_mapM hkeys htaken
    exact hname expr hexpr (matches_of_matching hmatching hmem)

/-! ### The edited config -/

/-- What is printed and read again is printed the same. -/
private theorem norm_norm (val : Text) : norm (norm val) = norm val := by
  by_cases h : val = ascii "n"
  · rw [h]
    rfl
  · rw [norm, norm, if_neg h, if_neg h]

/-- A base config and part of the difference. -/
theorem edited_of_add {base new diff : Config} {take : Text → Prop} (hbase : WellFormed base)
    (hnew : WellFormed new) (hdiff : WellFormed diff) (hpb : PlainConfig base)
    (hpn : PlainConfig new)
    (hsub : ∀ name, diff.lookup name = none ∨
      diff.lookup name = (configDiff base new false).lookup name)
    (htake : ∀ name, take name → diff.lookup name = (configDiff base new false).lookup name) :
    Edited take base new (reload (configAdd base diff false)) := by
  -- a symbol of the difference has the value of the edited config
  have hval {name val : Text} (h : diff.lookup name = some val) : new.lookup name = some val := by
    rcases hsub name with hnone | hsome
    · rw [hnone] at h
      cases h
    · rw [hsome] at h
      exact ((lookup_configDiff hnew name val).mp h).1
  have hplain : PlainConfig (configAdd base diff false) := by
    intro name val hlookup
    rw [lookup_configAdd hbase hdiff, Option.or_eq_some_iff] at hlookup
    rcases hlookup with hlookup | ⟨-, hlookup⟩
    · exact hpn name val (hval hlookup)
    · exact hpb name val hlookup
  -- the file holds the difference where it has the symbol, else the base
  have hreload (name : Text) : ((reload (configAdd base diff false)).lookup name).map norm =
      ((diff.lookup name).or (base.lookup name)).map norm := by
    rw [lookup_reload (hbase.add hdiff) hplain, lookup_configAdd hbase hdiff, Option.map_map]
    congr 1
    exact funext norm_norm
  constructor
  · intro name val hnew' htaken
    rw [hreload, htake name htaken]
    by_cases hsame : base.lookup name = some val
    · -- the difference does not have the symbol, or it has the same value
      cases hd : (configDiff base new false).lookup name with
      | none =>
        rw [hsame]
        rfl
      | some val' =>
        obtain ⟨hval', -⟩ := (lookup_configDiff hnew name val').mp hd
        rw [hnew'] at hval'
        obtain rfl := Option.some.inj hval'
        rfl
    · rw [(lookup_configDiff hnew name val).mpr ⟨hnew', hsame⟩]
      rfl
  · intro name val hnone hbase'
    rw [hreload]
    cases hd : diff.lookup name with
    | none =>
      rw [hbase']
      rfl
    | some val' =>
      rw [hval hd] at hnone
      cases hnone

/-- If symbols that are not set have plain names, adding what was changed to the base config gives
    the edited config again, and so does adding what a filter leaves of it, but for the symbols that
    the filter matches. -/
theorem reload_edited (re : Text → Text → Option Bool) (base new : Text)
    (hbase : PlainConfig (loadConfig base false)) (hnew : PlainConfig (loadConfig new false)) :
    Edited (fun _ => True) (loadConfig base false) (loadConfig new false)
      (reload (configAdd (loadConfig base false)
        (configDiff (loadConfig base false) (loadConfig new false) false) false)) ∧
    ∀ filter diff, configSub re (configDiff (loadConfig base false) (loadConfig new false) false)
        (loadConfig filter false) = some diff →
      Edited (fun name => ∀ expr ∈ Assoc.keys (loadConfig filter false), ¬Matches re expr name)
        (loadConfig base false) (loadConfig new false)
        (reload (configAdd (loadConfig base false) diff false)) := by
  have hb := wellFormed_loadConfig base false
  have hn := wellFormed_loadConfig new false
  constructor
  · exact edited_of_add hb hn hn.diff hbase hnew (fun _ => .inr rfl) fun _ _ => rfl
  · intro filter diff hsub
    obtain ⟨hdiff, hcases, hkept⟩ := configSub_spec hn.diff hsub
    exact edited_of_add hb hn hdiff hbase hnew hcases hkept

/-- A config is plain if no name of a symbol that is not set has the text behind it. -/
theorem plainConfig_of_mem {config : Config} (h : ∀ p ∈ config, Unset p.2 →
    ∀ i < p.1.length, 0 < i → ¬notSet <+: p.1.drop i) : PlainConfig config := by
  intro name val hlookup hunset i hpos hprefix
  by_cases hi : i < name.length
  · exact h (name, val) (Assoc.mem_of_lookup hlookup) hunset i hi hpos hprefix
  · rw [List.drop_of_length_le (by omega)] at hprefix
    exact absurd (List.prefix_nil.mp hprefix) (by decide)

/-- A changed symbol, one that is gone and a new one. -/
theorem reload_edited_sample :
    Edited (fun _ => True) (loadConfig (ascii "CONFIG_A=y\n# CONFIG_B is not set\n") false)
      (loadConfig (ascii "CONFIG_A=m\nCONFIG_C=n\n") false)
      (reload (configAdd (loadConfig (ascii "CONFIG_A=y\n# CONFIG_B is not set\n") false)
        (configDiff (loadConfig (ascii "CONFIG_A=y\n# CONFIG_B is not set\n") false)
          (loadConfig (ascii "CONFIG_A=m\nCONFIG_C=n\n") false) false) false)) :=
  (reload_edited (fun _ _ => none) _ _ (plainConfig_of_mem (by decide))
    (plainConfig_of_mem (by decide))).1

/-- A symbol that is not set is read back under a shorter name. -/
theorem notSet_in_name_lost :
    ¬Edited (fun _ => True) (loadConfig [] false)
      (loadConfig (ascii "CONFIG_A is not set=n\n") false)
      (reload (configAdd (loadConfig [] false) (configDiff (loadConfig [] false)
        (loadConfig (ascii "CONFIG_A is not set=n\n") false) false) false)) := by
  intro h
  have hkept := h.1 (ascii "A is not set") (ascii "n") (by decide) trivial
  have hsum : configAdd (loadConfig [] false) (configDiff (loadConfig [] false)
      (loadConfig (ascii "CONFIG_A is not set=n\n") false) false) false =
      [(ascii "A is not set", ascii "n")] := by decide
  rw [hsum, reload, dumpConfig, Assoc.keys, List.map_singleton, List.mergeSort_singleton] at hkept
  exact absurd hkept (by decide)

end HandsomeMod.Native.Kconfig
