import HandsomeMod.Spec.KconfigReload

/-!
# The operations on kernel configs

On values `y`, `m` and `#undef`, merging with `m+` takes the larger value of every symbol, and so
does loading a file with it, line by line. `config_and` and `config_diff` share out the symbols of
a config, but for those that have the value `0` in both configs: Perl takes it for false.
-/

namespace HandsomeMod.Native.Kconfig

open ForStd

/-- Two hashes with the same symbols and values. -/
def Same (a b : Config) : Prop := ∀ name, a.lookup name = b.lookup name

/-! ### Merging with `m+` -/

/-- The values of a symbol that can be built in or as a module. -/
def tristate : List Text := [ascii "y", ascii "m", undef]

/-- `y` is above `m`, `m` above `#undef`, and a symbol without a value below all. -/
def rank : Option Text → Nat
  | none => 0
  | some val => if val = ascii "y" then 3 else if val = ascii "m" then 2 else 1

/-- Values of tristate symbols are told apart by their ranks. -/
private theorem rank_inj {val val' : Option Text} (h : ∀ v ∈ val, v ∈ tristate)
    (h' : ∀ v ∈ val', v ∈ tristate) (heq : rank val = rank val') : val = val' := by
  have hall : ∀ v ∈ none :: tristate.map some, ∀ v' ∈ none :: tristate.map some,
      rank v = rank v' → v = v' := by decide
  have hmem : ∀ val : Option Text, (∀ v ∈ val, v ∈ tristate) → val ∈ none :: tristate.map some := by
    intro val hval
    cases val with
    | none => exact List.mem_cons_self
    | some v => exact List.mem_cons_of_mem _ (List.mem_map_of_mem (hval v rfl))
  exact hall val (hmem val h) val' (hmem val' h') heq

/-- A hash with such values only. -/
structure IsTristate (config : Config) : Prop where
  nodup : (Assoc.keys config).Nodup
  values : ∀ name, ∀ val ∈ config.lookup name, val ∈ tristate

/-- The empty config has tristate values only. -/
theorem isTristate_nil : IsTristate [] := ⟨List.nodup_nil, fun _ _ h => by cases h⟩

/-- A tristate value may be entered. -/
theorem IsTristate.put {config : Config} (h : IsTristate config) (name : Text) {val : Text}
    (hval : val ∈ tristate) : IsTristate (Assoc.put name val config) := by
  refine ⟨Assoc.nodup_put h.nodup name val, fun name' val' hlookup => ?_⟩
  rw [Assoc.lookup_put] at hlookup
  split at hlookup
  · rwa [← Option.some.inj hlookup]
  · exact h.values name' val' hlookup

/-- What a config becomes whose symbol `name` takes the larger one of its value and `val`. -/
structure Raised (config config' : Config) (name val : Text) : Prop where
  isTristate : IsTristate config'
  rank_eq : ∀ name', rank (config'.lookup name') =
    if name' = name then max (rank (config.lookup name')) (rank (some val))
    else rank (config.lookup name')

/-- The value of the symbol is kept if it is not below. -/
private theorem raised_self {config : Config} (h : IsTristate config) {name val : Text}
    (hle : rank (some val) ≤ rank (config.lookup name)) : Raised config config name val := by
  refine ⟨h, fun name' => ?_⟩
  split
  · rename_i heq
    rw [heq, Nat.max_eq_left hle]
  · rfl

/-- The value is taken if that of the symbol is not above. -/
private theorem raised_put {config : Config} (h : IsTristate config) {name val : Text}
    (hval : val ∈ tristate) (hle : rank (config.lookup name) ≤ rank (some val)) :
    Raised config (Assoc.put name val config) name val := by
  refine ⟨h.put name hval, fun name' => ?_⟩
  rw [Assoc.lookup_put]
  split
  · rename_i heq
    rw [heq, Nat.max_eq_right hle]
  · rfl

/-- One turn of the loop of `config_add` with `m+`. -/
def addNext (config : Config) (p : Text × Text) : Config :=
  if truthy (config.lookup p.1) ∧ (config.lookup p.1 = some (ascii "y") ∨ p.2 = undef) then config
  else Assoc.put p.1 p.2 config

/-- `config_add` with `mod_plus` goes through both configs. -/
private theorem configAdd_true (cfg1 cfg2 : Config) :
    configAdd cfg1 cfg2 true = (cfg1 ++ cfg2).foldl addNext [] := by
  simp only [configAdd, true_and]
  rfl

/-- How the two rules compare the values: one keeps the old value, the other takes the new one. -/
private theorem keeps_iff : ∀ old ∈ none :: tristate.map some, ∀ new ∈ tristate,
    (truthy old ∧ (old = some (ascii "y") ∨ new = undef) → rank (some new) ≤ rank old) ∧
      (¬(truthy old ∧ (old = some (ascii "y") ∨ new = undef)) → rank old ≤ rank (some new)) := by
  decide

/-- A lookup gives nothing or a tristate value. -/
private theorem lookup_mem {config : Config} (h : IsTristate config) (name : Text) :
    config.lookup name ∈ none :: tristate.map some := by
  cases hold : config.lookup name with
  | none => exact List.mem_cons_self
  | some v => exact List.mem_cons_of_mem _ (List.mem_map_of_mem (h.values name v hold))

/-- An entry raises its symbol to the value, and no other. -/
private theorem addNext_raised {config : Config} (h : IsTristate config) (name : Text) {val : Text}
    (hval : val ∈ tristate) : Raised config (addNext config (name, val)) name val := by
  obtain ⟨hkeep, htake⟩ := keeps_iff _ (lookup_mem h name) val hval
  rw [addNext]
  split
  · rename_i hcond
    exact raised_self h (hkeep hcond)
  · rename_i hcond
    exact raised_put h hval (htake hcond)

/-- `set_config` raises its symbol to the value, and no other. -/
private theorem setConfig_raised {config : Config} (h : IsTristate config) (name : Text)
    {val : Text}
    (hval : val ∈ tristate) : Raised config (setConfig config name val true) name val := by
  -- over the three states `y` beats `m`, and both beat an unset symbol
  have hrule : ∀ old ∈ tristate, ∀ new ∈ tristate,
      (old = undef ∨ new = ascii "y" → rank (some old) ≤ rank (some new)) ∧
        (¬(old = undef ∨ new = ascii "y") → rank (some new) ≤ rank (some old)) := by decide
  rw [setConfig]
  split
  · rename_i hnone
    exact raised_put h hval (hnone ▸ Nat.zero_le _)
  · rename_i old hold
    obtain ⟨htake, hkeep⟩ := hrule old (h.values name old hold) val hval
    split
    · rename_i hcond
      refine raised_put h hval ?_
      rw [hold]
      exact htake (hcond.resolve_left fun hfalse => hfalse rfl)
    · rename_i hcond
      refine raised_self h ?_
      rw [hold]
      exact hkeep fun hor => hcond (.inr hor)

/-- Merging with `m+` takes the larger value of every symbol. -/
private theorem foldl_addNext {config : Config} (h : IsTristate config) {l : Config}
    (hl : IsTristate l) :
    IsTristate (l.foldl addNext config) ∧ ∀ name,
      rank ((l.foldl addNext config).lookup name) =
        max (rank (config.lookup name)) (rank (l.lookup name)) := by
  induction l generalizing config with
  | nil => exact ⟨h, fun name => (Nat.max_zero _).symm⟩
  | cons p l ih =>
    obtain ⟨hp, hnodup⟩ := List.nodup_cons.mp hl.nodup
    have hnone := (Assoc.lookup_eq_none p.1 l).mpr hp
    have hval : p.2 ∈ tristate := hl.values p.1 p.2 (by rw [Assoc.lookup_cons, if_pos rfl]; rfl)
    -- the keys of the added configuration are distinct, so each symbol is met once
    have hrest : IsTristate l := by
      refine ⟨hnodup, fun name val hlookup => hl.values name val ?_⟩
      rw [Assoc.lookup_cons, if_neg, hlookup]
      · rfl
      · rintro rfl
        rw [hnone] at hlookup
        cases hlookup
    have hraised := addNext_raised h p.1 hval
    obtain ⟨htri, hrank⟩ := ih hraised.isTristate hrest
    refine ⟨htri, fun name => ?_⟩
    rw [List.foldl_cons, hrank, hraised.rank_eq, Assoc.lookup_cons]
    by_cases hname : name = p.1
    · have hzero : rank none = 0 := rfl
      rw [if_pos hname, if_pos hname.symm, hname, hnone, hzero, Nat.max_zero]
    · rw [if_neg hname, if_neg fun heq => hname heq.symm]

/-- `config_add` gives each symbol the greater of its values. -/
theorem configAdd_join {a b : Config} (ha : IsTristate a) (hb : IsTristate b) :
    IsTristate (configAdd a b true) ∧ ∀ name, rank ((configAdd a b true).lookup name) =
      max (rank (a.lookup name)) (rank (b.lookup name)) := by
  obtain ⟨htri, hrank⟩ := foldl_addNext isTristate_nil ha
  obtain ⟨htri', hrank'⟩ := foldl_addNext htri hb
  rw [configAdd_true, List.foldl_append]
  refine ⟨htri', fun name => ?_⟩
  rw [hrank', hrank]
  exact congrArg (max · _) (Nat.zero_max _)

/-- Configs with the same ranks are the same. -/
theorem same_of_rank {a b : Config} (ha : IsTristate a) (hb : IsTristate b)
    (h : ∀ name, rank (a.lookup name) = rank (b.lookup name)) : Same a b :=
  fun name => rank_inj (ha.values name) (hb.values name) (h name)

/-! ### Loading with `m+` -/

/-- A file that gives its symbols such values only. -/
def TristateFile (file : Text) : Prop :=
  ∀ line ∈ file.splitOn 10, ∀ p ∈ loadLine line, p.2 ∈ tristate

/-- The rank that a line asks for. -/
def lineRank (name line : Text) : Nat :=
  match loadLine line with
  | some (name', val) => if name = name' then rank (some val) else 0
  | none => 0

/-- The lines of a file give each symbol the greatest of its values. -/
theorem foldl_loadNext {lines : List Text} (hlines : ∀ line ∈ lines, ∀ p ∈ loadLine line, p.2 ∈ tristate)
    {config : Config} (h : IsTristate config) :
    IsTristate (lines.foldl (loadNext true) config) ∧ ∀ name,
      rank ((lines.foldl (loadNext true) config).lookup name) =
        lines.foldl (fun r line => max r (lineRank name line)) (rank (config.lookup name)) := by
  induction lines generalizing config with
  | nil => exact ⟨h, fun _ => rfl⟩
  | cons line lines ih =>
    -- a line that is no setting leaves the configuration
    have hturn : IsTristate (loadNext true config line) ∧ ∀ name,
        rank ((loadNext true config line).lookup name) =
          max (rank (config.lookup name)) (lineRank name line) := by
      simp only [loadNext, lineRank]
      cases hload : loadLine line with
      | none => exact ⟨h, fun name => (Nat.max_zero _).symm⟩
      | some p =>
        have hraised := setConfig_raised h p.1 (hlines line List.mem_cons_self p hload)
        refine ⟨hraised.isTristate, fun name => ?_⟩
        show _ = max _ (if name = p.1 then rank (some p.2) else 0)
        rw [hraised.rank_eq]
        split
        · rfl
        · exact (Nat.max_zero _).symm
    obtain ⟨htri, hrank⟩ := ih (fun l hl => hlines l (List.mem_cons_of_mem _ hl)) hturn.1
    refine ⟨htri, fun name => ?_⟩
    rw [List.foldl_cons, hrank, hturn.2, List.foldl_cons]

/-- The config of one line. -/
private theorem loadConfig_line {line : Text} (hline : 10 ∉ line)
    (h : ∀ p ∈ loadLine line, p.2 ∈ tristate) :
    IsTristate (loadConfig line true) ∧ ∀ name,
      rank ((loadConfig line true).lookup name) = lineRank name line := by
  rw [loadConfig, List.splitOn_eq_singleton hline]
  obtain ⟨htri, hrank⟩ := foldl_loadNext (List.forall_mem_singleton.mpr h) isTristate_nil
  refine ⟨htri, fun name => ?_⟩
  rw [hrank]
  exact Nat.zero_max _

/-- Merging lines one by one. -/
theorem foldl_mergeLines {lines : List Text} (hnl : ∀ line ∈ lines, 10 ∉ line)
    (hlines : ∀ line ∈ lines, ∀ p ∈ loadLine line, p.2 ∈ tristate) {config : Config}
    (h : IsTristate config) :
    IsTristate (lines.foldl (fun c line => configAdd c (loadConfig line true) true) config) ∧
      ∀ name, rank ((lines.foldl (fun c line => configAdd c (loadConfig line true) true) config).lookup
          name) = lines.foldl (fun r line => max r (lineRank name line)) (rank (config.lookup name)) := by
  induction lines generalizing config with
  | nil => exact ⟨h, fun _ => rfl⟩
  | cons line lines ih =>
    obtain ⟨hline, hlineRank⟩ := loadConfig_line (hnl line List.mem_cons_self)
      (hlines line List.mem_cons_self)
    obtain ⟨hadd, haddRank⟩ := configAdd_join h hline
    obtain ⟨htri, hrank⟩ := ih (fun l hl => hnl l (List.mem_cons_of_mem _ hl))
      (fun l hl => hlines l (List.mem_cons_of_mem _ hl)) hadd
    refine ⟨htri, fun name => ?_⟩
    rw [List.foldl_cons, hrank, haddRank, hlineRank, List.foldl_cons]

/-- The order of the lines does not matter. -/
theorem foldl_max_perm {lines lines' : List Text} (h : lines.Perm lines') (f : Text → Nat) (r : Nat) :
    lines.foldl (fun r line => max r (f line)) r = lines'.foldl (fun r line => max r (f line)) r :=
  h.foldl_eq' (fun x _ y _ r => by omega) r

/-- Merging with `m+` is a join, and loading with it merges the lines, in any order. -/
theorem modPlus_isJoin :
    (∀ a b c : Config, IsTristate a → IsTristate b → IsTristate c →
      Same (configAdd a b true) (configAdd b a true) ∧
      Same (configAdd (configAdd a b true) c true) (configAdd a (configAdd b c true) true) ∧
      Same (configAdd a a true) a ∧
      ∀ name, rank ((configAdd a b true).lookup name) =
        max (rank (a.lookup name)) (rank (b.lookup name))) ∧
    ∀ file, TristateFile file → ∀ lines : List Text, lines.Perm (file.splitOn 10) →
      Same (loadConfig file true)
        (lines.foldl (fun config line => configAdd config (loadConfig line true) true) []) := by
  constructor
  -- on each symbol the sum is the greater of the two ranks, and ranks name their states
  · intro a b c ha hb hc
    obtain ⟨hab, hrab⟩ := configAdd_join ha hb
    obtain ⟨hba, hrba⟩ := configAdd_join hb ha
    obtain ⟨hbc, hrbc⟩ := configAdd_join hb hc
    obtain ⟨haa, hraa⟩ := configAdd_join ha ha
    obtain ⟨habc, hrabc⟩ := configAdd_join hab hc
    obtain ⟨habc', hrabc'⟩ := configAdd_join ha hbc
    refine ⟨same_of_rank hab hba fun name => ?_, same_of_rank habc habc' fun name => ?_,
      same_of_rank haa ha fun name => ?_, hrab⟩
    · rw [hrab, hrba, Nat.max_comm]
    · rw [hrabc, hrabc', hrab, hrbc, Nat.max_assoc]
    · rw [hraa, Nat.max_self]
  -- both ways of loading take the greatest rank of a symbol's lines, in any order
  · intro file hfile lines hperm
    have hlines : ∀ line ∈ lines, ∀ p ∈ loadLine line, p.2 ∈ tristate :=
      fun line hline => hfile line (hperm.mem_iff.mp hline)
    have hnl : ∀ line ∈ lines, 10 ∉ line :=
      fun line hline => not_mem_of_mem_splitOn (hperm.mem_iff.mp hline)
    obtain ⟨hload, hloadRank⟩ := foldl_loadNext hfile isTristate_nil
    obtain ⟨hmerge, hmergeRank⟩ := foldl_mergeLines hnl hlines isTristate_nil
    refine same_of_rank hload hmerge fun name => (hloadRank name).trans ?_
    rw [hmergeRank, foldl_max_perm hperm]

/-- A symbol that is set twice. -/
def twiceFile : Text := ascii "CONFIG_A=m\n# CONFIG_A is not set\nCONFIG_B=y"

/-- A file that has a symbol twice, read forwards and backwards. -/
theorem modPlus_isJoin_twiceFile :
    Same (configAdd [(ascii "A", ascii "m")] [(ascii "A", ascii "y")] true)
        (configAdd [(ascii "A", ascii "y")] [(ascii "A", ascii "m")] true) ∧
      Same (loadConfig twiceFile true) ((twiceFile.splitOn 10).reverse.foldl
        (fun config line => configAdd config (loadConfig line true) true) []) := by
  have hsingle : ∀ val ∈ tristate, IsTristate [(ascii "A", val)] := fun val hval =>
    isTristate_nil.put (ascii "A") hval
  have hfile : TristateFile twiceFile := by
    unfold TristateFile
    decide +kernel
  exact ⟨(modPlus_isJoin.1 _ _ [] (hsingle _ (by decide)) (hsingle _ (by decide)) isTristate_nil).1,
    modPlus_isJoin.2 twiceFile hfile _ (List.reverse_perm _)⟩

/-! ### Intersection and difference -/

/-- `config_and` and `config_diff` share out the symbols of `a`, and adding them up gives `a`. -/
structure Complementary (a b : Config) : Prop where
  once : ∀ name, ∀ val ∈ a.lookup name,
    (configAnd a b).lookup name = some val ∧ (configDiff b a false).lookup name = none ∨
      (configAnd a b).lookup name = none ∧ (configDiff b a false).lookup name = some val
  add : ∀ modPlus, Same (configAdd (configAnd a b) (configDiff b a false) modPlus) a

/-- `config_and` has the values of the first config that are set there and equal in the second. -/
theorem lookup_configAnd {a b : Config} (h : WellFormed a) (name val : Text) :
    (configAnd a b).lookup name = some val ↔
      a.lookup name = some val ∧ truthy (some val) ∧ b.lookup name = some val := by
  rw [configAnd, lookup_filter h.nodup, Bool.and_eq_true, beq_iff_eq]
  constructor
  · rintro ⟨ha, htrue, hb⟩
    exact ⟨ha, hb ▸ htrue, hb⟩
  · rintro ⟨ha, htrue, hb⟩
    exact ⟨ha, hb.symm ▸ htrue, hb⟩

/-- A value that was read is false only if it is `0`. -/
theorem Loaded.truthy_iff {name val : Text} (h : Loaded name val) :
    truthy (some val) ↔ val ≠ ascii "0" := by
  rw [truthy, decide_eq_true_eq]
  exact and_iff_right h.val_ne

/-- Symbols that are all different are put in one after the other, whatever the rule. -/
theorem configAdd_of_nodup {a b : Config} (h : (Assoc.keys (a ++ b)).Nodup) (modPlus : Bool) :
    configAdd a b modPlus = configAdd a b false := by
  rw [configAdd_false, configAdd]
  generalize a ++ b = l at h
  suffices ∀ config : Config, (∀ p ∈ l, config.lookup p.1 = none) →
      l.foldl (fun config p => if modPlus ∧ truthy (config.lookup p.1) ∧
          (config.lookup p.1 = some (ascii "y") ∨ p.2 = undef) then config
        else Assoc.put p.1 p.2 config) config =
      l.foldl (fun c p => Assoc.put p.1 p.2 c) config from this [] fun _ _ => rfl
  induction l with
  | nil => exact fun _ _ => rfl
  | cons p l ih =>
    intro config hnone
    obtain ⟨hp, hl⟩ := List.nodup_cons.mp h
    -- the symbol is new, so the test of `modPlus` is never met
    have hfalse : ¬(modPlus ∧ truthy (config.lookup p.1) ∧
        (config.lookup p.1 = some (ascii "y") ∨ p.2 = undef)) := by
      rw [hnone p List.mem_cons_self]
      rintro ⟨-, htrue, -⟩
      cases htrue
    rw [List.foldl_cons, List.foldl_cons, if_neg hfalse]
    -- the remaining symbols are still new, since the keys are distinct
    refine ih hl _ fun q hq => ?_
    have hne : q.1 ≠ p.1 := fun heq => hp (heq ▸ List.mem_map_of_mem hq)
    rw [Assoc.lookup_put, if_neg hne]
    exact hnone q (List.mem_cons_of_mem _ hq)

/-- `config_and` gives a well formed config. -/
theorem WellFormed.and {a : Config} (h : WellFormed a) (b : Config) : WellFormed (configAnd a b) where
  nodup := List.Nodup.sublist (List.Sublist.map _ List.filter_sublist) h.nodup
  loaded name val hlookup := h.loaded name val ((lookup_configAnd h name val).mp hlookup).1

/-- What two configs share and what they do not have no symbol in common. -/
theorem nodup_and_diff {a b : Config} (h : WellFormed a) :
    (Assoc.keys (configAnd a b ++ configDiff b a false)).Nodup := by
  rw [Assoc.keys, List.map_append]
  refine List.nodup_append.mpr ⟨(h.and b).nodup, h.diff.nodup, ?_⟩
  rintro name hand name' hdiff rfl
  obtain ⟨⟨name, val⟩, hmem, rfl⟩ := List.mem_map.mp hand
  obtain ⟨⟨name', val'⟩, hmem', hname⟩ := List.mem_map.mp hdiff
  obtain rfl : name' = name := hname
  have hval := (lookup_configAnd h _ _).mp ((Assoc.lookup_eq_some (h.and b).nodup).mpr hmem)
  have hval' := (lookup_configDiff h _ _).mp ((Assoc.lookup_eq_some h.diff.nodup).mpr hmem')
  refine hval'.2 ?_
  rw [hval.2.2, ← hval.1, hval'.1]

/-- Two configs that were read are shared out right exactly if no symbol has the value `0` in
    both. -/
theorem complementary_iff (fileA fileB : Text) (modPlusA modPlusB : Bool) :
    Complementary (loadConfig fileA modPlusA) (loadConfig fileB modPlusB) ↔
      ¬∃ name, (loadConfig fileA modPlusA).lookup name = some (ascii "0") ∧
        (loadConfig fileB modPlusB).lookup name = some (ascii "0") := by
  have ha := wellFormed_loadConfig fileA modPlusA
  generalize loadConfig fileA modPlusA = a at ha
  generalize loadConfig fileB modPlusB = b
  constructor
  -- a common value `0` is in neither the intersection nor the difference
  · rintro h ⟨name, hzero, hzero'⟩
    rcases h.once name _ hzero with ⟨hand, -⟩ | ⟨-, hdiff⟩
    · exact absurd ((lookup_configAnd ha _ _).mp hand).2.1 (by decide)
    · exact ((lookup_configDiff ha _ _).mp hdiff).2 hzero'
  · intro h
    have hnone : ∀ {config : Config} {name : Text}, (∀ val, ¬config.lookup name = some val) →
        config.lookup name = none := fun hall => Option.eq_none_iff_forall_ne_some.mpr hall
    -- each symbol of the config is in exactly one of the two parts
    have honce : ∀ name, ∀ val ∈ a.lookup name,
        (configAnd a b).lookup name = some val ∧ (configDiff b a false).lookup name = none ∨
          (configAnd a b).lookup name = none ∧ (configDiff b a false).lookup name = some val := by
      intro name val hval
      have hval : a.lookup name = some val := hval
      by_cases hb : b.lookup name = some val
      · -- the value is none that Perl takes for false
        have hne : val ≠ ascii "0" := by
          rintro rfl
          exact h ⟨name, hval, hb⟩
        refine .inl ⟨(lookup_configAnd ha _ _).mpr
          ⟨hval, (ha.loaded name val hval).truthy_iff.mpr hne, hb⟩, hnone fun val' hval' => ?_⟩
        obtain ⟨hval', hb'⟩ := (lookup_configDiff ha _ _).mp hval'
        obtain rfl := Option.some.inj (hval.symm.trans hval')
        exact hb' hb
      · refine .inr ⟨hnone fun val' hval' => ?_, (lookup_configDiff ha _ _).mpr ⟨hval, hb⟩⟩
        obtain ⟨hval', -, hb'⟩ := (lookup_configAnd ha _ _).mp hval'
        obtain rfl := Option.some.inj (hval.symm.trans hval')
        exact hb hb'
    refine ⟨honce, fun modPlus name => ?_⟩
    rw [configAdd_of_nodup (nodup_and_diff ha), lookup_configAdd (ha.and b) ha.diff]
    -- a symbol of the config is in one of the two, any other in none
    cases hval : a.lookup name with
    | some val =>
      rcases honce name val hval with ⟨hand, hdiff⟩ | ⟨hand, hdiff⟩
      · rw [hand, hdiff]
        rfl
      · rw [hand, hdiff]
        rfl
    -- a symbol that the config does not have
    | none =>
      have hand : (configAnd a b).lookup name = none := hnone fun val hval' => by
        rw [lookup_configAnd ha, hval] at hval'
        cases hval'.1
      have hdiff : (configDiff b a false).lookup name = none := hnone fun val hval' => by
        rw [lookup_configDiff ha, hval] at hval'
        cases hval'.1
      rw [hand, hdiff]
      rfl

/-- A symbol with the value `0` in both files is lost. -/
theorem not_complementary_zero :
    ¬Complementary (loadConfig (ascii "CONFIG_A=0") false) (loadConfig (ascii "CONFIG_A=0") false) := by
  intro h
  have hload : (loadConfig (ascii "CONFIG_A=0") false).lookup (ascii "A") = some (ascii "0") := by decide
  rcases h.once (ascii "A") (ascii "0") hload with ⟨hand, -⟩ | ⟨-, hdiff⟩
  · exact absurd hand (by decide)
  · exact absurd hdiff (by decide)

end HandsomeMod.Native.Kconfig
