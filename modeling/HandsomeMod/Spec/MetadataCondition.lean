import HandsomeMod.Native.PackageMetadata

/-!
# Conditions for Kconfig and for make

A condition has a value in Kconfig, of which there are three. `gen_condition` deletes the parentheses
and the negations and splits what is left, which gives the `groups` of a condition: make has a
disjunction of conjunctions. Both agree where there is nothing but a leading negation to delete and no
disjunction in a factor of a conjunction.
-/

namespace HandsomeMod.Native.PackageMetadata

open ForStd

/-! ### Conditions -/

/-- A character of a symbol. -/
def isSymbolByte (b : UInt8) : Bool :=
  (0x30 ≤ b && b ≤ 0x39) || (0x41 ≤ b && b ≤ 0x5a) || (0x61 ≤ b && b ≤ 0x7a) || b == 0x5f ||
    b == 0x2d || b == 0x2e

/-- The name of a symbol. -/
structure Symbol where
  text : Text
  ne_nil : text ≠ []
  legal : ∀ b ∈ text, isSymbolByte b = true
  ne_zero : text ≠ ascii "0"

/-- The levels of the grammar. -/
inductive Level where
  | unary
  | and
  | or

/-- A condition. -/
inductive Cond : Level → Type where
  | sym (s : Symbol) : Cond .unary
  | not (c : Cond .unary) : Cond .unary
  | paren (c : Cond .or) : Cond .unary
  | one (c : Cond .unary) : Cond .and
  | and (c : Cond .and) (d : Cond .unary) : Cond .and
  | all (c : Cond .and) : Cond .or
  | or (c : Cond .or) (d : Cond .and) : Cond .or

/-- The text of a condition. -/
def Cond.text : {l : Level} → Cond l → Text
  | _, sym s => s.text
  | _, not c => 0x21 :: c.text
  | _, paren c => 0x28 :: (c.text ++ [0x29])
  | _, one c => c.text
  | _, and c d => c.text ++ 0x26 :: 0x26 :: d.text
  | _, all c => c.text
  | _, or c d => c.text ++ 0x7c :: 0x7c :: d.text

/-- The values of Kconfig. -/
inductive Tristate where
  | n
  | m
  | y
  deriving Repr, DecidableEq

/-- The value of a negation. -/
def Tristate.not : Tristate → Tristate
  | n => y
  | m => m
  | y => n

/-- The smaller value. -/
def Tristate.min : Tristate → Tristate → Tristate
  | n, _ => n
  | _, n => n
  | m, _ => m
  | _, m => m
  | y, y => y

/-- The larger value. -/
def Tristate.max : Tristate → Tristate → Tristate
  | y, _ => y
  | _, y => y
  | m, _ => m
  | _, m => m
  | n, n => n

/-- The values of the symbols. -/
abbrev Config := Text → Tristate

/-- The value of a condition in Kconfig. -/
def Cond.value (σ : Config) : {l : Level} → Cond l → Tristate
  | _, sym s => σ s.text
  | _, not c => (c.value σ).not
  | _, paren c => c.value σ
  | _, one c => c.value σ
  | _, and c d => (c.value σ).min (d.value σ)
  | _, all c => c.value σ
  | _, or c d => (c.value σ).max (d.value σ)

/-- What a variable is in make: `CONFIG_x` is empty if `x` is not set. -/
def Tristate.text : Tristate → Text
  | n => []
  | m => ascii "m"
  | y => ascii "y"

/-- What GNU make expands a text to. -/
def MakeExpr.eval (curdir : Text) (σ : Config) : MakeExpr → Text
  | path p => curdir ++ ascii "/" ++ p ++ ascii "/compile"
  | config sym => (σ sym).text
  | andConfig syms =>
    if ∀ s ∈ syms, σ s ≠ .n then (syms.getLast?.map fun s => (σ s).text).getD [] else []
  | nothing => []
  | append a b => a.eval curdir σ ++ b.eval curdir σ
  | ifThen c t => if c.eval curdir σ ≠ [] then t.eval curdir σ else []
  | ifElse c e => if c.eval curdir σ ≠ [] then [] else e.eval curdir σ

/-! ### What is left of a condition -/

/-- The last group of the first list is continued by the first one of the second. -/
def glue (l r : List (List Text)) : List (List Text) :=
  l.dropLast ++ (l.getLastD [] ++ r.headD []) :: r.tail

/-- The symbols between `||` and `&&` when the parentheses and the negations are deleted. -/
def Cond.groups : {l : Level} → Cond l → List (List Text)
  | _, sym s => [[s.text]]
  | _, not c => c.groups
  | _, paren c => c.groups
  | _, one c => c.groups
  | _, and c d => glue c.groups d.groups
  | _, all c => c.groups
  | _, or c d => c.groups ++ d.groups

/-- The text of groups. -/
def groupsText (gs : List (List Text)) : Text :=
  (ascii "||").intercalate (gs.map ((ascii "&&").intercalate ·))

/-! ### Splitting -/

/-- Another character belongs to the first part. -/
private theorem splitTwo_cons {c x : UInt8} (h : x ≠ c) (s : Text) :
    splitTwo c (x :: s) = (splitTwo c s).modifyHead (x :: ·) := by
  cases s with
  | nil => rfl
  | cons y s => rw [splitTwo, if_neg fun hx => h hx.1]

/-- A text without the character is one part. -/
private theorem splitTwo_eq {c : UInt8} {p : Text} (h : c ∉ p) : splitTwo c p = [p] := by
  induction p with
  | nil => rfl
  | cons x p ih =>
    rw [List.mem_cons, not_or] at h
    rw [splitTwo_cons (Ne.symm h.1), ih h.2]
    rfl

/-- The text is split at the doubled character. -/
private theorem splitTwo_append {c : UInt8} {p : Text} (h : c ∉ p) (s : Text) :
    splitTwo c (p ++ c :: c :: s) = p :: splitTwo c s := by
  induction p with
  | nil => rw [List.nil_append, splitTwo, if_pos ⟨rfl, rfl⟩]
  | cons x p ih =>
    rw [List.mem_cons, not_or] at h
    rw [List.cons_append, splitTwo_cons (Ne.symm h.1), ih h.2]
    rfl

/-- The pieces of a text that was put together from them. -/
private theorem splitTwo_intercalate {c : UInt8} {ps : List Text} (hne : ps ≠ [])
    (h : ∀ p ∈ ps, c ∉ p) :
    splitTwo c ([c, c].intercalate ps) = ps := by
  induction ps with
  | nil => exact absurd rfl hne
  | cons p ps ih =>
    obtain ⟨hp, hps⟩ := List.forall_mem_cons.mp h
    by_cases hnil : ps = []
    · rw [hnil, List.intercalate_singleton, splitTwo_eq hp]
    · rw [List.intercalate_cons_of_ne_nil hnil, List.append_assoc, List.cons_append,
        List.singleton_append, splitTwo_append hp, ih hnil hps]

/-- Splitting what was joined gives the parts. -/
private theorem perlSplit_intercalate {c : UInt8} {ps : List Text} (hne : ps ≠ [])
    (h : ∀ p ∈ ps, p ≠ [] ∧ c ∉ p) : perlSplit c ([c, c].intercalate ps) = ps := by
  rw [perlSplit, splitTwo_intercalate hne fun p hp => (h p hp).2, List.rdropWhile_eq_self_iff]
  intro hl
  have hlast := (h _ (List.getLast_mem hl)).1
  simpa using hlast

/-! ### The groups of a condition -/

/-- There is a group, and each group has a symbol, all of legal characters. -/
structure Grouped (gs : List (List Text)) : Prop where
  ne_nil : gs ≠ []
  groups : ∀ g ∈ gs, g ≠ [] ∧ ∀ s ∈ g, s ≠ [] ∧ ∀ b ∈ s, isSymbolByte b = true

/-- Groups of both sides of an `||`. -/
theorem Grouped.append {l r : List (List Text)} (hl : Grouped l) (hr : Grouped r) :
    Grouped (l ++ r) where
  ne_nil := List.append_ne_nil_of_left_ne_nil hl.ne_nil r
  groups g hg := (List.mem_append.mp hg).elim (hl.groups g) (hr.groups g)

/-- Two lists are glued at the last group and the first one. -/
private theorem exists_glue {l r : List (List Text)} (hl : l ≠ []) (hr : r ≠ []) :
    ∃ l' g h r', l = l' ++ [g] ∧ r = h :: r' ∧ glue l r = l' ++ (g ++ h) :: r' := by
  obtain ⟨h, r', rfl⟩ := List.exists_cons_of_ne_nil hr
  refine ⟨l.dropLast, l.getLast hl, h, r', (List.dropLast_concat_getLast hl).symm, rfl, ?_⟩
  rw [glue, List.getLastD_eq_getLast?, List.getLast?_eq_getLast_of_ne_nil hl]
  rfl

/-- Groups of both sides of an `&&`. -/
theorem Grouped.glue {l r : List (List Text)} (hl : Grouped l) (hr : Grouped r) :
    Grouped (glue l r) := by
  obtain ⟨l', g, h, r', rfl, rfl, hglue⟩ := exists_glue hl.ne_nil hr.ne_nil
  rw [hglue]
  have hg := hl.groups g (List.mem_append_right _ List.mem_cons_self)
  have hh := hr.groups h List.mem_cons_self
  constructor
  · exact List.append_ne_nil_of_right_ne_nil _ (List.cons_ne_nil _ _)
  · intro k hk
    rcases List.mem_append.mp hk with hk | hk
    · exact hl.groups k (List.mem_append_left _ hk)
    -- the group of the seam is the last of the left and the first of the right
    · rcases List.mem_cons.mp hk with rfl | hk
      · refine ⟨List.append_ne_nil_of_left_ne_nil hg.1 h, ?_⟩
        intro s hs
        exact (List.mem_append.mp hs).elim (hg.2 s) (hh.2 s)
      · exact hr.groups k (List.mem_cons_of_mem _ hk)

/-- The groups of a condition are well formed. -/
theorem Cond.grouped : {l : Level} → (c : Cond l) → Grouped c.groups
  | _, sym s =>
    { ne_nil := List.cons_ne_nil _ _
      groups := by
        -- a symbol is one group of one
        intro g hg
        rw [List.mem_singleton.mp hg]
        refine ⟨List.cons_ne_nil _ _, ?_⟩
        intro t ht
        rw [List.mem_singleton.mp ht]
        exact ⟨s.ne_nil, s.legal⟩ }
  | _, not c => c.grouped
  | _, paren c => c.grouped
  | _, one c => c.grouped
  | _, and c d => c.grouped.glue d.grouped
  | _, all c => c.grouped
  | _, or c d => c.grouped.append d.grouped

/-- Joining two lists of texts. -/
private theorem intercalate_append {sep : Text} {l r : List Text} (hl : l ≠ []) (hr : r ≠ []) :
    sep.intercalate (l ++ r) = sep.intercalate l ++ sep ++ sep.intercalate r := by
  induction l with
  | nil => exact absurd rfl hl
  | cons p l ih =>
    by_cases hnil : l = []
    · rw [hnil, List.singleton_append, List.intercalate_cons_of_ne_nil hr,
        List.intercalate_singleton]
    · rw [List.cons_append, List.intercalate_cons_of_ne_nil (List.append_ne_nil_of_left_ne_nil hnil r),
        ih hnil, List.intercalate_cons_of_ne_nil hnil]
      simp only [List.append_assoc]

/-- The text of groups that are joined by `||`. -/
private theorem groupsText_append {l r : List (List Text)} (hl : l ≠ []) (hr : r ≠ []) :
    groupsText (l ++ r) = groupsText l ++ ascii "||" ++ groupsText r := by
  rw [groupsText, List.map_append, intercalate_append (by simpa using hl) (by simpa using hr)]
  rfl

/-- The text of groups that are joined by `&&`. -/
private theorem groupsText_glue {l r : List (List Text)} (hl : Grouped l) (hr : Grouped r) :
    groupsText (glue l r) = groupsText l ++ ascii "&&" ++ groupsText r := by
  obtain ⟨l', g, h, r', rfl, rfl, hglue⟩ := exists_glue hl.ne_nil hr.ne_nil
  have hg := (hl.groups g (List.mem_append_right _ List.mem_cons_self)).1
  have hh := (hr.groups h List.mem_cons_self).1
  -- the last group of the left and the first of the right become one
  have hmid : groupsText ((g ++ h) :: r') = groupsText [g] ++ ascii "&&" ++ groupsText (h :: r') := by
    rw [groupsText, groupsText, groupsText, List.map_cons, intercalate_append hg hh]
    by_cases hnil : r' = []
    · simp only [hnil, List.map_nil, List.map_cons, List.intercalate_singleton]
    · have hmap : r'.map ((ascii "&&").intercalate ·) ≠ [] := by simpa using hnil
      rw [List.intercalate_cons_of_ne_nil hmap, List.map_cons, List.map_cons, List.map_nil,
        List.intercalate_singleton, List.intercalate_cons_of_ne_nil hmap]
      simp only [List.append_assoc]
  rw [hglue]
  by_cases hnil : l' = []
  · rw [hnil, List.nil_append, List.nil_append, hmid]
  · rw [groupsText_append hnil (List.cons_ne_nil _ _), hmid,
      groupsText_append hnil (List.cons_ne_nil _ _)]
    simp only [List.append_assoc]

/-- A symbol has none of the characters that are deleted or split at. -/
private theorem legal_ne {b : UInt8} (h : isSymbolByte b = true) :
    b ∉ ascii "()!" ∧ b ≠ 0x26 ∧ b ≠ 0x7c ∧ b ≠ 0x3a ∧ b ≠ 0x40 ∧ b ≠ 0x2b ∧ b ≠ 0x21 := by
  have hne (c : UInt8) (hc : isSymbolByte c = false) : b ≠ c := by
    rintro rfl
    rw [hc] at h
    cases h
  have hdeleted : ∀ c ∈ ascii "()!", isSymbolByte c = false := by decide +kernel
  exact ⟨fun hb => hne b (hdeleted b hb) rfl, hne 0x26 rfl, hne 0x7c rfl, hne 0x3a rfl,
    hne 0x40 rfl, hne 0x2b rfl, hne 0x21 rfl⟩

/-- What is left of the text is that of the groups. -/
theorem Cond.filter_text : {l : Level} → (c : Cond l) →
    c.text.filter (· ∉ ascii "()!") = groupsText c.groups
  | _, sym s => by
    rw [text, groups, groupsText, List.map_singleton, List.intercalate_singleton,
      List.intercalate_singleton]
    exact List.filter_eq_self.mpr fun b hb => decide_eq_true (legal_ne (s.legal b hb)).1
  -- the `!` goes, its argument stays
  | _, not c => by
    rw [text, List.filter_cons_of_neg (by decide), c.filter_text]
    rfl
  | _, paren c => by
    rw [text, List.filter_cons_of_neg (by decide), List.filter_append, c.filter_text]
    exact List.append_nil _
  | _, one c => c.filter_text
  | _, and c d => by
    rw [text, List.filter_append, List.filter_cons_of_pos (by decide),
      List.filter_cons_of_pos (by decide), c.filter_text, d.filter_text, groups,
      groupsText_glue c.grouped d.grouped, List.append_assoc]
    rfl
  | _, all c => c.filter_text
  | _, or c d => by
    rw [text, List.filter_append, List.filter_cons_of_pos (by decide),
      List.filter_cons_of_pos (by decide), c.filter_text, d.filter_text, groups,
      groupsText_append c.grouped.ne_nil d.grouped.ne_nil, List.append_assoc]
    rfl

/-! ### What make has -/

variable {curdir : Text} {σ : Config}

/-- A value has a text unless it is `n`. -/
private theorem text_ne_nil_iff {t : Tristate} : t.text ≠ [] ↔ t ≠ .n := by
  cases t <;> decide

/-- A group holds in make if each of its symbols is set. -/
def GroupHolds (σ : Config) (g : List Text) : Prop := ∀ s ∈ g, σ s ≠ .n

/-- A group of symbols is true for make if all are set. -/
private theorem eval_andConfig {g : List Text} (hne : g ≠ []) :
    (MakeExpr.andConfig g).eval curdir σ ≠ [] ↔ GroupHolds σ g := by
  rw [MakeExpr.eval, GroupHolds]
  by_cases hall : ∀ s ∈ g, σ s ≠ .n
  · rw [if_pos hall, List.getLast?_eq_getLast_of_ne_nil hne]
    exact ⟨fun _ => hall, fun _ => text_ne_nil_iff.mpr (hall _ (List.getLast_mem hne))⟩
  · rw [if_neg hall]
    exact ⟨fun h => absurd rfl h, fun h => absurd h hall⟩

/-- So is the text of a group. -/
private theorem eval_andCondition {g : List Text} (hne : g ≠ [])
    (hlegal : ∀ s ∈ g, s ≠ [] ∧ ∀ b ∈ s, isSymbolByte b = true) :
    (andCondition ((ascii "&&").intercalate g)).eval curdir σ ≠ [] ↔ GroupHolds σ g := by
  have hsep : ascii "&&" = [0x26, 0x26] := by decide
  have hsplit : perlSplit 0x26 ((ascii "&&").intercalate g) = g := by
    rw [hsep]
    refine perlSplit_intercalate hne fun s hs => ⟨(hlegal s hs).1, fun hmem => ?_⟩
    exact (legal_ne ((hlegal s hs).2 _ hmem)).2.1 rfl
  rw [andCondition, hsplit]
  obtain ⟨s, g, rfl⟩ := List.exists_cons_of_ne_nil hne
  cases g with
  | nil =>
    rw [MakeExpr.eval, text_ne_nil_iff, GroupHolds, List.forall_mem_singleton]
  | cons s' g => exact eval_andConfig hne

/-- A character of a joined text is from a part or the separator. -/
private theorem mem_intercalate {sep : Text} {ps : List Text} {b : UInt8}
    (h : b ∈ sep.intercalate ps) :
    b ∈ sep ∨ ∃ p ∈ ps, b ∈ p := by
  induction ps with
  | nil => exact absurd h List.not_mem_nil
  | cons p ps ih =>
    by_cases hnil : ps = []
    · rw [hnil, List.intercalate_singleton] at h
      exact .inr ⟨p, List.mem_cons_self, h⟩
    · rw [List.intercalate_cons_of_ne_nil hnil, List.mem_append, List.mem_append] at h
      rcases h with (h | h) | h
      · exact .inr ⟨p, List.mem_cons_self, h⟩
      · exact .inl h
      · exact (ih h).imp_right fun ⟨q, hq, hb⟩ => ⟨q, List.mem_cons_of_mem _ hq, hb⟩

/-- A sum of make expressions is true if one is. -/
private theorem eval_foldr {l : List MakeExpr} :
    (l.foldr MakeExpr.append MakeExpr.nothing).eval curdir σ ≠ [] ↔ ∃ x ∈ l, x.eval curdir σ ≠ [] := by
  induction l with
  | nil => simp [MakeExpr.eval]
  | cons x l ih =>
    rw [List.foldr_cons, MakeExpr.eval, List.exists_mem_cons_iff, ← ih]
    simp only [ne_eq, List.append_eq_nil_iff, not_and_or]

/-- What `gen_condition` makes of a condition is not empty if a group holds. -/
private theorem eval_genCondition {l : Level} (c : Cond l) :
    (genCondition c.text).eval curdir σ ≠ [] ↔ ∃ g ∈ c.groups, GroupHolds σ g := by
  have hgrouped := c.grouped
  have hsep : ascii "||" = [0x7c, 0x7c] := by decide
  -- the text splits at `|` back into its groups, none of them is empty
  have hsplit : perlSplit 0x7c (groupsText c.groups) =
      c.groups.map ((ascii "&&").intercalate ·) := by
    rw [groupsText, hsep]
    refine perlSplit_intercalate (by simpa using hgrouped.ne_nil) ?_
    intro p hp
    obtain ⟨g, hg, rfl⟩ := List.mem_map.mp hp
    obtain ⟨hne, hlegal⟩ := hgrouped.groups g hg
    constructor
    · obtain ⟨s, g', rfl⟩ := List.exists_cons_of_ne_nil hne
      have hs := (hlegal s List.mem_cons_self).1
      obtain ⟨b, s', rfl⟩ := List.exists_cons_of_ne_nil hs
      simp
    · intro hmem
      rcases mem_intercalate hmem with hmem | ⟨s, hs, hmem⟩
      · exact absurd hmem (by decide)
      · exact (legal_ne ((hlegal s hs).2 _ hmem)).2.2.1 rfl
  rw [genCondition, c.filter_text, hsplit, eval_foldr]
  constructor
  · rintro ⟨x, hx, heval⟩
    obtain ⟨p, hp, rfl⟩ := List.mem_map.mp hx
    obtain ⟨g, hg, rfl⟩ := List.mem_map.mp hp
    exact ⟨g, hg, (eval_andCondition (hgrouped.groups g hg).1 (hgrouped.groups g hg).2).mp heval⟩
  · rintro ⟨g, hg, hholds⟩
    refine ⟨_, List.mem_map_of_mem (List.mem_map_of_mem hg), ?_⟩
    exact (eval_andCondition (hgrouped.groups g hg).1 (hgrouped.groups g hg).2).mpr hholds

/-- A condition has a text. -/
theorem Cond.text_ne_nil : {l : Level} → (c : Cond l) → c.text ≠ []
  | _, sym s => s.ne_nil
  | _, not _ => List.cons_ne_nil _ _
  | _, paren _ => List.cons_ne_nil _ _
  | _, one c => c.text_ne_nil
  | _, and _ _ => List.append_ne_nil_of_right_ne_nil _ (List.cons_ne_nil _ _)
  | _, all c => c.text_ne_nil
  | _, or _ _ => List.append_ne_nil_of_right_ne_nil _ (List.cons_ne_nil _ _)

/-- A text with an operator is longer than a character. -/
private theorem append_two_ne {a b : Text} {x y z : UInt8} : a ++ x :: y :: b ≠ [z] := by
  intro h
  have hlen := congrArg List.length h
  rw [List.length_append, List.length_cons, List.length_cons, List.length_singleton] at hlen
  omega

/-- No condition is the text `0`. -/
theorem Cond.text_ne_zero : {l : Level} → (c : Cond l) → c.text ≠ ascii "0"
  | _, sym s => s.ne_zero
  | _, not _ => fun h => absurd (List.cons.inj h).1 (by decide)
  | _, paren _ => fun h => absurd (List.cons.inj h).1 (by decide)
  | _, one c => c.text_ne_zero
  | _, and _ _ => append_two_ne
  | _, all c => c.text_ne_zero
  | _, or _ _ => append_two_ne

/-- The text of a condition is true for perl. -/
theorem Cond.truthy_text {l : Level} (c : Cond l) : truthy c.text = true := by
  rw [truthy, Bool.and_eq_true]
  exact ⟨decide_eq_true c.text_ne_nil, decide_eq_true c.text_ne_zero⟩

/-- What make has for a condition that does not begin with a negation. -/
private theorem eval_getConditionalDep {l : Level} (c : Cond l) (dep : MakeExpr)
    (hhead : c.text.head? ≠ some 0x21) :
    (getConditionalDep c.text dep).eval curdir σ =
      if (genCondition c.text).eval curdir σ ≠ [] then dep.eval curdir σ else [] := by
  have htruthy := c.truthy_text
  unfold getConditionalDep
  rw [if_pos htruthy]
  split
  · next h => exact absurd (congrArg List.head? h) hhead
  · rfl

/-- What it has for a negation. -/
private theorem eval_getConditionalDep_not (c : Cond .unary) (dep : MakeExpr) :
    (getConditionalDep (0x21 :: c.text) dep).eval curdir σ =
      if (genCondition c.text).eval curdir σ ≠ [] then [] else dep.eval curdir σ := by
  have htruthy : truthy (0x21 :: c.text) = true := (Cond.not c).truthy_text
  obtain ⟨x, rest, htext⟩ := List.exists_cons_of_ne_nil c.text_ne_nil
  unfold getConditionalDep
  rw [if_pos htruthy, htext]
  rfl

/-! ### Where both agree -/

/-- There is no disjunction. -/
def Cond.NoOr : {l : Level} → Cond l → Prop
  | _, sym _ => True
  | _, not c => c.NoOr
  | _, paren c => c.NoOr
  | _, one c => c.NoOr
  | _, and c d => c.NoOr ∧ d.NoOr
  | _, all c => c.NoOr
  | _, or _ _ => False

/-- There is no negation, and no disjunction in a factor of a conjunction. -/
def Cond.Flat : {l : Level} → Cond l → Prop
  | _, sym _ => True
  | _, not _ => False
  | _, paren c => c.Flat
  | _, one c => c.Flat
  | _, and c d => c.Flat ∧ d.Flat ∧ c.NoOr ∧ d.NoOr
  | _, all c => c.Flat
  | _, or c d => c.Flat ∧ d.Flat

/-- A condition without `||` is one group. -/
theorem Cond.NoOr.groups_eq : {l : Level} → {c : Cond l} → c.NoOr → ∃ g, c.groups = [g]
  | _, sym s, _ => ⟨[s.text], rfl⟩
  | _, not c, h => groups_eq (c := c) h
  | _, paren c, h => groups_eq (c := c) h
  | _, one c, h => groups_eq (c := c) h
  | _, and c d, h => by
    obtain ⟨g, hg⟩ := groups_eq (c := c) h.1
    obtain ⟨k, hk⟩ := groups_eq (c := d) h.2
    exact ⟨g ++ k, by rw [Cond.groups, hg, hk]; rfl⟩
  | _, all c, h => groups_eq (c := c) h
  | _, or _ _, h => absurd h id

/-- A conjunction is set if both sides are. -/
private theorem min_ne_n_iff {a b : Tristate} : a.min b ≠ .n ↔ a ≠ .n ∧ b ≠ .n := by
  cases a <;> cases b <;> decide

/-- A disjunction is set if a side is. -/
private theorem max_ne_n_iff {a b : Tristate} : a.max b ≠ .n ↔ a ≠ .n ∨ b ≠ .n := by
  cases a <;> cases b <;> decide

private theorem exists_mem_singleton {g : List Text} {p : List Text → Prop} :
    (∃ k ∈ [g], p k) ↔ p g := by
  simp

/-- A flat condition has a group that holds just if it is not `n`. -/
theorem Cond.Flat.holds_iff (σ : Config) : {l : Level} → {c : Cond l} → c.Flat →
    ((∃ g ∈ c.groups, GroupHolds σ g) ↔ c.value σ ≠ .n)
  | _, sym s, _ => by
    simp [Cond.groups, GroupHolds, Cond.value]
  | _, not _, h => absurd h id
  | _, paren c, h => holds_iff σ (c := c) h
  | _, one c, h => holds_iff σ (c := c) h
  | _, and c d, h => by
    -- neither side has an `||`, so each is one group and so is their conjunction
    obtain ⟨hc, hd, hcOr, hdOr⟩ := h
    obtain ⟨g, hg⟩ := hcOr.groups_eq
    obtain ⟨k, hk⟩ := hdOr.groups_eq
    have hleft := holds_iff σ hc
    have hright := holds_iff σ hd
    have hglue : glue [g] [k] = [g ++ k] := rfl
    rw [hg, exists_mem_singleton] at hleft
    rw [hk, exists_mem_singleton] at hright
    rw [Cond.groups, Cond.value, min_ne_n_iff, ← hleft, ← hright, hg, hk, hglue,
      exists_mem_singleton]
    exact List.forall_mem_append
  | _, all c, h => holds_iff σ (c := c) h
  | _, or c d, h => by
    rw [Cond.groups, Cond.value, max_ne_n_iff, ← holds_iff σ h.1, ← holds_iff σ h.2]
    simp only [List.mem_append, or_and_right, exists_or]

/-- The first character of a text that begins another one. -/
private theorem head?_append_of_ne_nil {a b : Text} (h : a ≠ []) : (a ++ b).head? = a.head? := by
  obtain ⟨x, a, rfl⟩ := List.exists_cons_of_ne_nil h
  rfl

/-- A condition without negation does not begin with `!`. -/
theorem Cond.Flat.head?_ne : {l : Level} → {c : Cond l} → c.Flat → c.text.head? ≠ some 0x21
  | _, sym s, _ => by
    -- a symbol begins with a legal character, which `!` is not
    obtain ⟨x, rest, htext⟩ := List.exists_cons_of_ne_nil s.ne_nil
    have hlegal := s.legal
    rw [Cond.text, htext, List.head?_cons]
    rw [htext] at hlegal
    intro hx
    exact (legal_ne (hlegal x List.mem_cons_self)).2.2.2.2.2.2 (Option.some.inj hx)
  | _, not _, h => absurd h id
  | _, paren _, _ => by
    rw [Cond.text, List.head?_cons]
    decide
  | _, one c, h => head?_ne (c := c) h
  | _, and c d, h => by
    rw [Cond.text, head?_append_of_ne_nil c.text_ne_nil]
    exact head?_ne h.1
  | _, all c, h => head?_ne (c := c) h
  | _, or c d, h => by
    rw [Cond.text, head?_append_of_ne_nil c.text_ne_nil]
    exact head?_ne h.1

/-- A flat condition, or the negation of one. -/
def Cond.Plain (c : Cond .or) : Prop := c.Flat ∨ ∃ d, c = .all (.one (.not d)) ∧ d.Flat

/-- A condition is true for make: one that begins with a negation if it is `y`, and another one if it is
not `n`. -/
def Cond.Active (σ : Config) (c : Cond .or) : Prop :=
  if c.text.head? = some 0x21 then c.value σ = .y else c.value σ ≠ .n

instance (σ : Config) (c : Cond .or) : Decidable (c.Active σ) :=
  inferInstanceAs (Decidable
    (if c.text.head? = some 0x21 then c.value σ = .y else c.value σ ≠ .n))

/-- A negation is `y` just if the value is `n`. -/
private theorem not_eq_y_iff {a : Tristate} : a.not = .y ↔ ¬ a ≠ .n := by
  cases a <;> decide

/-- For a plain condition make has the dependency just if the condition is true. -/
theorem Cond.Plain.eval_eq {c : Cond .or} (h : c.Plain) (dep : MakeExpr) :
    (getConditionalDep c.text dep).eval curdir σ =
      if c.Active σ then dep.eval curdir σ else [] := by
  rcases h with hflat | ⟨d, rfl, hflat⟩
  · rw [eval_getConditionalDep c dep hflat.head?_ne]
    simp only [eval_genCondition, hflat.holds_iff σ, Cond.Active, if_neg hflat.head?_ne]
  · have htext : (Cond.all (.one (.not d))).text = 0x21 :: d.text := rfl
    have hactive : Cond.Active σ (.all (.one (.not d))) ↔ ¬ d.value σ ≠ .n := by
      rw [Cond.Active, htext, if_pos List.head?_cons]
      exact not_eq_y_iff
    rw [htext, eval_getConditionalDep_not]
    simp only [eval_genCondition, hflat.holds_iff σ, hactive, ite_not]

/-! ### The entry -/

/-- The name that an entry has behind its condition. -/
structure DepName where
  text : Text
  ne_nil : text ≠ []
  legal : ∀ b ∈ text, b ≠ 0x3a ∧ b ≠ 0x40 ∧ b ≠ 0x2b

/-- What holds for both sides and the operator. -/
private theorem forall_mem_binary {p : UInt8 → Prop} {a b : Text} {x : UInt8} (ha : ∀ y ∈ a, p y)
    (hx : p x)
    (hb : ∀ y ∈ b, p y) : ∀ y ∈ a ++ x :: x :: b, p y := by
  intro y hy
  rcases List.mem_append.mp hy with hy | hy
  · exact ha y hy
  · exact List.forall_mem_cons.mpr ⟨hx, List.forall_mem_cons.mpr ⟨hx, hb⟩⟩ y hy

/-- A condition has none of the characters that the entry is taken apart at. -/
theorem Cond.text_legal : {l : Level} → (c : Cond l) → ∀ b ∈ c.text, b ≠ 0x3a ∧ b ≠ 0x40 ∧ b ≠ 0x2b
  | _, sym s => by
    intro b hb
    obtain ⟨-, -, -, hcolon, hat, hplus, -⟩ := legal_ne (s.legal b hb)
    exact ⟨hcolon, hat, hplus⟩
  | _, not c => List.forall_mem_cons.mpr ⟨by decide, c.text_legal⟩
  | _, paren c => List.forall_mem_cons.mpr ⟨by decide, List.forall_mem_append.mpr
    ⟨c.text_legal, List.forall_mem_singleton.mpr (by decide)⟩⟩
  | _, one c => c.text_legal
  | _, and c d => forall_mem_binary c.text_legal (by decide) d.text_legal
  | _, all c => c.text_legal
  | _, or c d => forall_mem_binary c.text_legal (by decide) d.text_legal

/-- The one colon is found. -/
private theorem splitColon_eq {a b : Text} (ha : a ≠ []) (hb : b ≠ []) (ha' : 0x3a ∉ a)
    (hb' : 0x3a ∉ b) :
    splitColon (a ++ 0x3a :: b) = some (a, b) := by
  have hapos := List.length_pos_iff.mpr ha
  have hbpos := List.length_pos_iff.mpr hb
  have hlen : (a ++ 0x3a :: b).length = a.length + 1 + b.length := by
    rw [List.length_append, List.length_cons]
    omega
  -- the only colon is the one between `a` and `b`
  have hfind : ∀ i < (a ++ 0x3a :: b).length,
      (0 < i && (a ++ 0x3a :: b).getD i 0 == 0x3a && i + 1 < (a ++ 0x3a :: b).length) = true →
        i = a.length := by
    intro i hi hp
    simp only [Bool.and_eq_true, beq_iff_eq] at hp
    have hget := hp.1.2
    rcases Nat.lt_trichotomy i a.length with hlt | heq | hgt
    · rw [List.getD_append _ _ _ _ hlt, List.getD_eq_getElem _ _ hlt] at hget
      exact absurd (hget ▸ List.getElem_mem hlt) ha'
    · exact heq
    · obtain ⟨j, rfl⟩ := Nat.exists_eq_add_of_lt hgt
      have hj : j < b.length := by omega
      rw [List.getD_append_right _ _ _ _ (by omega),
        show a.length + j + 1 - a.length = j + 1 by omega, List.getD_cons_succ,
        List.getD_eq_getElem _ _ hj] at hget
      exact absurd (hget ▸ List.getElem_mem hj) hb'
  have hcolon : (0 < a.length && (a ++ 0x3a :: b).getD a.length 0 == 0x3a &&
      a.length + 1 < (a ++ 0x3a :: b).length) = true := by
    rw [List.getD_append_right _ _ _ _ (le_refl _), Nat.sub_self, List.getD_cons_zero, hlen]
    simp only [Bool.and_eq_true, decide_eq_true_eq, beq_self_eq_true, and_true]
    omega
  rw [splitColon, Option.map_eq_some_iff]
  -- the greedy match takes the last colon with text on both sides
  cases hfound : (List.range (a ++ 0x3a :: b).length).reverse.find? fun i =>
      0 < i && (a ++ 0x3a :: b).getD i 0 == 0x3a && i + 1 < (a ++ 0x3a :: b).length with
  | none =>
    have hnone := List.find?_eq_none.mp hfound a.length (by
      rw [List.mem_reverse, List.mem_range]
      omega)
    exact absurd hcolon hnone
  | some i =>
    have hi := List.mem_range.mp (List.mem_reverse.mp (List.mem_of_find?_eq_some hfound))
    have hsat := List.find?_some (p := fun i => 0 < i && (a ++ 0x3a :: b).getD i 0 == 0x3a &&
      i + 1 < (a ++ 0x3a :: b).length) hfound
    refine ⟨i, rfl, ?_⟩
    rw [hfind i hi hsat, List.take_left, List.append_cons, List.drop_left']
    rw [List.length_append, List.length_singleton]

/-- The providers that are not of the package's own source. -/
def others (srcname : Text) (providers : List Provider) : List Provider :=
  providers.filter (srcname ≠ ·.srcName)

/-- What is emitted for an entry with a condition, which may be a `select`. -/
theorem deplines_eq (srcname : Text) {vpackage : Text → Option (List Provider)} {plus : Text}
    (hplus : plus = [] ∨ plus = [0x2b]) (c : Cond .or) (name : DepName) {providers : List Provider}
    (hprovided : vpackage name.text = some providers) :
    deplines srcname vpackage (plus ++ c.text ++ 0x3a :: name.text) =
      (others srcname providers).map fun v =>
        getConditionalDep c.text (depstr (others srcname providers).length v) := by
  have hcond := c.text_legal
  -- a dependency with `@` would be one on a symbol
  have hat : 0x40 ∉ plus ++ c.text ++ 0x3a :: name.text := by
    rw [List.mem_append, List.mem_append, List.mem_cons]
    rintro ((hmem | hmem) | heq | hmem)
    · rcases hplus with rfl | rfl
      · exact List.not_mem_nil hmem
      · exact absurd hmem (by decide)
    · exact (hcond _ hmem).2.1 rfl
    · exact absurd heq (by decide)
    · exact (name.legal _ hmem).2.1 rfl
  -- the plus in front is taken away, and there is no other
  have hfilter : (plus ++ c.text ++ 0x3a :: name.text).filter (· ≠ 0x2b) =
      c.text ++ 0x3a :: name.text := by
    have hkeep : (c.text ++ 0x3a :: name.text).filter (· ≠ 0x2b) = c.text ++ 0x3a :: name.text :=
      List.filter_eq_self.mpr (List.forall_mem_append.mpr
        ⟨fun b hb => decide_eq_true (hcond b hb).2.2,
          List.forall_mem_cons.mpr ⟨by decide, fun b hb => decide_eq_true (name.legal b hb).2.2⟩⟩)
    rw [List.append_assoc, List.filter_append, hkeep]
    rcases hplus with rfl | rfl
    · rfl
    · rfl
  have hsplit : splitColon (c.text ++ 0x3a :: name.text) = some (c.text, name.text) :=
    splitColon_eq c.text_ne_nil name.ne_nil (fun hmem => (hcond _ hmem).1 rfl)
      fun hmem => (name.legal _ hmem).1 rfl
  unfold deplines
  rw [if_neg hat, hfilter]
  simp only [hsplit, Option.getD_some, hprovided]
  rfl

/-- The dependencies of an entry with a plain condition are there just if the condition is true. -/
theorem deplines_eval (curdir : Text) (σ : Config) (srcname : Text)
    {vpackage : Text → Option (List Provider)} {plus : Text} {c : Cond .or} {name : DepName}
    {providers : List Provider} (hplus : plus = [] ∨ plus = [0x2b]) (hplain : c.Plain)
    (hprovided : vpackage name.text = some providers) :
    (deplines srcname vpackage (plus ++ c.text ++ 0x3a :: name.text)).map (·.eval curdir σ) =
      (others srcname providers).map fun v =>
        if c.Active σ then (depstr (others srcname providers).length v).eval curdir σ else [] := by
  rw [deplines_eq srcname hplus c name hprovided, List.map_map]
  refine List.map_congr_left fun v _ => ?_
  exact hplain.eval_eq _

/-- `A`, `B` and `C`. -/
def symA : Symbol := ⟨ascii "A", by decide, by decide +kernel, by decide⟩

def symB : Symbol := ⟨ascii "B", by decide, by decide +kernel, by decide⟩

def symC : Symbol := ⟨ascii "C", by decide, by decide +kernel, by decide⟩

def depD : DepName := ⟨ascii "d", by decide, by decide +kernel⟩

/-- `A||B&&C` -/
def eitherAOrBC : Cond .or := .or (.all (.one (.sym symA))) (.and (.one (.sym symB)) (.sym symC))

/-- The condition of the examples has no negation. -/
theorem flat_eitherAOrBC : eitherAOrBC.Flat := by
  simp [eitherAOrBC, Cond.Flat, Cond.NoOr]

/-- A provider of `d`. -/
def providersD : List Provider := [⟨ascii "d", ascii "t", ascii "t"⟩]

/-- `A || B && C` with all symbols built as modules. -/
theorem deplines_eval_eitherAOrBC :
    (deplines (ascii "s") (fun _ => some providersD)
      ([0x2b] ++ eitherAOrBC.text ++ 0x3a :: depD.text)).map (·.eval (ascii "p") fun _ => .m) =
      (others (ascii "s") providersD).map fun v =>
        if eitherAOrBC.Active (fun _ => .m) then
          (depstr (others (ascii "s") providersD).length v).eval (ascii "p") fun _ => .m
        else [] :=
  deplines_eval (ascii "p") (fun _ => .m) (ascii "s") (.inr rfl) (.inl flat_eitherAOrBC) rfl

/-- `A&&!B` -/
def onlyA : Cond .or := .all (.and (.one (.sym symA)) (.not (.sym symB)))

/-- The condition is true in Kconfig, and make does not have the dependency. -/
theorem onlyA_not_active :
    onlyA.value (fun s => if s = ascii "A" then .y else .n) = .y ∧
    (deplines (ascii "s") (fun _ => some providersD) (onlyA.text ++ 0x3a :: depD.text)).map
        (·.eval (ascii "p") fun s => if s = ascii "A" then .y else .n) = [[]] := by
  decide

end HandsomeMod.Native.PackageMetadata
