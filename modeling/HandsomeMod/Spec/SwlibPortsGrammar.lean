import HandsomeMod.Native.SwlibPorts

/-!
# The grammar of port lists

The scanner accepts the lists of words that are digits followed by any number of `t`, and what is
printed is such a list. The kernel hands its ports to the driver.
-/

namespace HandsomeMod.Native.Swlib

open ForStd

/-- A C string: its bytes in front of the `NUL`. -/
abbrev Text := { str : List UInt8 // ∀ c ∈ str, c ≠ 0 }

def inWord (c : UInt8) : Bool := !isSpace c

/-- The words of a text, which spaces separate. -/
def words (s : List UInt8) : List (List UInt8) :=
  match _h : s.dropWhile isSpace with
  | [] => []
  | c :: s' => (c :: s'.takeWhile inWord) :: words (s'.dropWhile inWord)
termination_by s.length
decreasing_by
  have hdrop := (List.dropWhile_sublist (l := s) isSpace).length_le
  have hrest := (List.dropWhile_sublist (l := s') inWord).length_le
  rw [_h, List.length_cons] at hdrop
  omega

/-- A word that stands for the port `n`: digits, and `t` any number of times if it is tagged. -/
def Denotes (word : List UInt8) (n : Nat) (isTagged : Bool) : Prop :=
  ∃ ds k, word = ds ++ List.replicate k 0x74 ∧ ds ≠ [] ∧ (∀ c ∈ ds, isDigit c = true) ∧
    n = decimal ds ∧ isTagged = decide (0 < k)

/-- The port as it is stored, with an `unsigned long` of `w` bits and an `unsigned int` of 32. -/
def stored (w n : Nat) (isTagged : Bool) : SwitchPort where
  id := UInt32.ofNat (min n (2 ^ w - 1))
  flags := if isTagged then tagged else 0

def Reads (w : Nat) (word : List UInt8) (port : SwitchPort) : Prop :=
  ∃ n isTagged, Denotes word n isTagged ∧ port = stored w n isTagged

/-! ### Words -/

/-- Spaces have no word. -/
theorem words_of_spaces {s : List UInt8} (h : s.dropWhile isSpace = []) : words s = [] := by
  rw [words]
  split
  · rfl
  · rename_i heq
    rw [h] at heq
    cases heq

/-- The first word and the others. -/
theorem words_of_cons {s s' : List UInt8} {c : UInt8} (h : s.dropWhile isSpace = c :: s') :
    words s = (c :: s'.takeWhile inWord) :: words (s'.dropWhile inWord) := by
  rw [words]
  split
  · rename_i heq
    rw [h] at heq
    cases heq
  · rename_i heq
    rw [h] at heq
    obtain ⟨rfl, rfl⟩ := List.cons.inj heq
    rfl

/-- A space in front does not matter. -/
private theorem words_space_cons {c : UInt8} (s : List UInt8) (hc : isSpace c = true) :
    words (c :: s) = words s := by
  have hdrop : (c :: s).dropWhile isSpace = s.dropWhile isSpace := by
    rw [List.dropWhile_cons, if_pos hc]
  cases h : s.dropWhile isSpace with
  | nil => rw [words_of_spaces h, words_of_spaces (hdrop.trans h)]
  | cons d s' => rw [words_of_cons h, words_of_cons (hdrop.trans h)]

/-! ### The pointer -/

/-- The character at a position. -/
private theorem charAt_append (pre s : List UInt8) :
    charAt (pre ++ s) pre.length = .ok (s.headD 0) := by
  rw [charAt, if_neg (by simp)]
  cases s <;> simp

/-- The character at a position, or the NUL. -/
private theorem getD_append (pre s : List UInt8) : (pre ++ s).getD pre.length 0 = s.headD 0 := by
  cases s <;> simp

/-- The loop stops at the first character that is not a space. -/
private theorem skipSpaces_append (pre s : List UInt8) : skipSpaces (pre ++ s) pre.length =
    .ok (pre ++ s.takeWhile isSpace).length := by
  induction s generalizing pre with
  | nil =>
    rw [skipSpaces, if_neg (by simp), getD_append]
    simp
  | cons c s ih =>
    rw [skipSpaces, if_neg (by simp), getD_append, List.headD_cons]
    by_cases hc : isSpace c = true
    · have hne : c ≠ 0 := by
        rintro rfl
        exact absurd hc (by decide)
      -- the space moves over to what the pointer has passed
      have hnext := ih (pre ++ [c])
      rw [List.append_assoc, List.singleton_append, List.length_append] at hnext
      simp only [hne, hc, ne_eq, not_false_eq_true, and_self, if_true]
      rw [show pre.length + 1 = pre.length + [c].length from rfl, hnext,
        List.takeWhile_cons_of_pos hc]
      simp
    · simp only [hc, Bool.false_eq_true, and_false, if_false]
      rw [List.takeWhile_cons_of_neg hc]
      simp

/-- The flags of the characters up to the next space, unless one of them is not `t`. -/
private theorem flagLoop_append (pre s : List UInt8) (flags : UInt32) (hs : ∀ c ∈ s, c ≠ 0) :
    flagLoop (pre ++ s) pre.length flags =
      .ok (if ∀ c ∈ s.takeWhile inWord, c = 0x74 then
        some (if s.takeWhile inWord = [] then flags else flags ||| tagged,
          (pre ++ s.takeWhile inWord).length) else none) := by
  induction s generalizing pre flags with
  | nil =>
    rw [flagLoop, if_neg (by simp), getD_append]
    simp
  | cons c s ih =>
    have hne : c ≠ 0 := hs c List.mem_cons_self
    rw [flagLoop, if_neg (by simp), getD_append, List.headD_cons]
    by_cases hc : isSpace c = true
    · simp [hc, inWord]
    · have hstep : inWord c = true := by simp [hc, inWord]
      rw [List.takeWhile_cons_of_pos hstep]
      simp only [hne, hc, ne_eq, not_false_eq_true, and_self, if_true, Bool.false_eq_true]
      -- only a `t` is a flag, any other byte refuses the word
      by_cases ht : c = 0x74
      · have hnext := ih (pre ++ [c]) (flags ||| tagged) fun d hd => hs d (List.mem_cons_of_mem c hd)
        rw [List.append_assoc, List.singleton_append, List.length_append] at hnext
        rw [if_pos ht, show pre.length + 1 = pre.length + [c].length from rfl, hnext]
        have hor : flags ||| tagged ||| tagged = flags ||| tagged := by
          rw [UInt32.or_assoc, UInt32.or_self]
        simp [ht, hor]
      · rw [if_neg ht, if_neg]
        intro hall
        exact ht (hall c List.mem_cons_self)

/-- A number is read to its last digit. -/
private theorem strtoulAt_append (w : Nat) {pre ds rest : List UInt8} (hne : ds ≠ [])
    (hds : ∀ c ∈ ds, isDigit c = true) (hrest : ∀ c ∈ rest.head?, isDigit c = false) :
    strtoulAt w (pre ++ (ds ++ rest)) pre.length =
      (min (decimal ds) (2 ^ w - 1), (pre ++ ds).length) := by
  rw [strtoulAt, List.drop_left' rfl, strtoul10_digits w hne hds hrest]
  simp only [List.length_append]
  congr 1
  omega

/-! ### One word -/

/-- The digits of a word, and what is behind them in the text. -/
theorem Reads.iff (w : Nat) (s : List UInt8) (port : SwitchPort) :
    Reads w (s.takeWhile inWord) port ↔
      s.takeWhile isDigit ≠ [] ∧
        (∀ c ∈ (s.dropWhile isDigit).takeWhile inWord, c = 0x74) ∧
        port = ⟨UInt32.ofNat (min (decimal (s.takeWhile isDigit)) (2 ^ w - 1)),
          if (s.dropWhile isDigit).takeWhile inWord = [] then 0 else tagged⟩ := by
  -- digits are no spaces, so the word is its digits and what follows them up to a space
  have hsplit : s.takeWhile inWord =
      s.takeWhile isDigit ++ (s.dropWhile isDigit).takeWhile inWord := by
    conv_lhs => rw [← List.takeWhile_append_dropWhile (p := isDigit) (l := s)]
    rw [List.takeWhile_append_of_pos]
    intro c hc
    rw [inWord, isSpace_of_isDigit (List.mem_takeWhile_imp hc)]
    rfl
  -- what is behind the digits does not begin with one
  have hbehind : ∀ c ∈ ((s.dropWhile isDigit).takeWhile inWord).head?, isDigit c = false := by
    intro c hc
    cases hrest : s.dropWhile isDigit with
    | nil =>
      rw [hrest] at hc
      cases hc
    | cons d rest =>
      have hd : isDigit d = false := by
        have hnot := List.head?_dropWhile_not isDigit s
        rw [hrest] at hnot
        simpa using hnot
      rw [hrest] at hc
      by_cases hin : inWord d = true
      · rw [List.takeWhile_cons_of_pos hin] at hc
        cases hc
        exact hd
      · rw [List.takeWhile_cons_of_neg hin] at hc
        cases hc
  have hdigit : ∀ c ∈ s.takeWhile isDigit, isDigit c = true := fun c hc =>
    List.mem_takeWhile_imp hc
  have hword := takeWhile_digits hdigit hbehind
  constructor
  -- the digits of a word are the longest run of them, so the split is the one above
  · rintro ⟨n, isTagged, ⟨ds, k, heq, hne, hds, rfl, rfl⟩, rfl⟩
    have hflags : ∀ c ∈ (List.replicate k (0x74 : UInt8)).head?, isDigit c = false := by
      intro c hc
      rw [List.eq_of_mem_replicate (List.mem_of_mem_head? hc)]
      decide
    rw [hsplit] at heq
    have hdigits : s.takeWhile isDigit = ds := by
      rw [← hword, heq, takeWhile_digits hds hflags]
    rw [hdigits] at heq ⊢
    rw [List.append_cancel_left heq]
    refine ⟨hne, fun c hc => List.eq_of_mem_replicate hc, ?_⟩
    rw [stored]
    cases k <;> simp
  · rintro ⟨hne, hall, rfl⟩
    refine ⟨_, _, ⟨s.takeWhile isDigit, ((s.dropWhile isDigit).takeWhile inWord).length, ?_, hne,
      hdigit, rfl, rfl⟩, ?_⟩
    · rw [hsplit, ← List.eq_replicate_of_mem hall]
    · rw [stored]
      cases (s.dropWhile isDigit).takeWhile inWord <;> simp

/-! ### The scanner -/

/-- The ports behind the first `len` that a rest of the text stands for. -/
def Continues (w devPorts : Nat) (s : List UInt8) (len : Nat) (ports l : List SwitchPort) : Prop :=
  ∃ l', List.Forall₂ (Reads w) (words s) l' ∧ len + l'.length ≤ devPorts ∧ l = ports.take len ++ l'

/-- The ports of `val`. -/
def taken (r : Option (Nat × List SwitchPort)) : Option (List SwitchPort) :=
  r.map fun (len, ports) => ports.take len

/-- Without further words the ports so far are the result. -/
private theorem taken_eq_some_iff_of_nil {w devPorts len : Nat} {s : List UInt8}
    {ports : List SwitchPort}
    (hs : words s = []) (hlen : len ≤ devPorts) (l : List SwitchPort) :
    taken (some (len, ports)) = some l ↔ Continues w devPorts s len ports l := by
  rw [Continues, hs]
  constructor
  · intro h
    exact ⟨[], .nil, hlen, (Option.some.inj h).symm.trans (List.append_nil _).symm⟩
  · rintro ⟨l', hall, -, rfl⟩
    cases hall
    rw [List.append_nil]
    rfl

/-- A space in front does not matter. -/
theorem Continues.space_cons_iff {w devPorts len : Nat} {c : UInt8} {s : List UInt8}
    {ports l : List SwitchPort} (hc : isSpace c = true) :
    Continues w devPorts (c :: s) len ports l ↔ Continues w devPorts s len ports l := by
  rw [Continues, Continues, words_space_cons s hc]

/-- A word that is left is a port, and there is room for it. -/
theorem Continues.of_words {w devPorts len : Nat} {s word : List UInt8} {ws : List (List UInt8)}
    {ports l : List SwitchPort} (h : Continues w devPorts s len ports l)
    (hs : words s = word :: ws) : len < devPorts ∧ ∃ port, Reads w word port := by
  obtain ⟨l', hall, hlen, -⟩ := h
  rw [hs] at hall
  cases hall with
  | cons hread hrest =>
    rw [List.length_cons] at hlen
    exact ⟨by omega, _, hread⟩

/-- What is refused has no result. -/
private theorem taken_none_iff {P : List SwitchPort → Prop} (h : ∀ l, ¬P l) (l : List SwitchPort) :
    taken none = some l ↔ P l := by
  constructor
  · intro hl
    cases hl
  · intro hl
    exact absurd hl (h l)

/-- The port of the next word is stored at `len`. -/
theorem Continues.cons_iff {w devPorts len : Nat} {s s' word : List UInt8}
    {ports l : List SwitchPort} (hs : words s = word :: words s') (hlen : len < ports.length) :
    Continues w devPorts s len ports l ↔
      ∃ port, Reads w word port ∧ Continues w devPorts s' (len + 1) (ports.set len port) l := by
  -- the port joins those read before it
  have htake (port : SwitchPort) :
      (ports.set len port).take (len + 1) = ports.take len ++ [port] := by
    rw [List.take_add_one, List.take_set_of_le (Nat.le_refl len), List.getElem?_set_self hlen]
    rfl
  rw [Continues, hs]
  constructor
  · rintro ⟨l', hall, hle, rfl⟩
    cases hall with
    | cons hread hrest =>
      rw [List.length_cons] at hle
      refine ⟨_, hread, _, hrest, by omega, ?_⟩
      rw [htake, List.append_assoc, List.singleton_append]
  · rintro ⟨port, hread, l', hrest, hle, rfl⟩
    refine ⟨port :: l', .cons hread hrest, by rw [List.length_cons]; omega, ?_⟩
    rw [htake, List.append_assoc, List.singleton_append]

/-- Only spaces are left. -/
private theorem portsLoop_spaces (w devPorts : Nat) {fuel len : Nat} {pre s : List UInt8}
    {ports : List SwitchPort} (h : s.dropWhile isSpace = []) :
    portsLoop w devPorts (pre ++ s) (fuel + 1) pre.length len ports = .ok (some (len, ports)) := by
  rw [portsLoop, charAt_append]
  simp only [bind, Except.bind, pure, Except.pure]
  split
  · rfl
  · have hall : s.takeWhile isSpace = s := by
      have hsplit := List.takeWhile_append_dropWhile (p := isSpace) (l := s)
      rwa [h, List.append_nil] at hsplit
    have hend := charAt_append (pre ++ s) []
    rw [List.append_nil] at hend
    rw [skipSpaces_append, hall]
    simp only [hend, List.headD_nil, if_true]

/-- A word is met: its first character decides, then the number of ports, then its flags. -/
private theorem portsLoop_word (w devPorts : Nat) {fuel len : Nat} {pre s t : List UInt8}
    {c : UInt8}
    {ports : List SwitchPort} (hs : ∀ c ∈ s, c ≠ 0) (h : s.dropWhile isSpace = c :: t)
    (hports : ports.length = devPorts) :
    portsLoop w devPorts (pre ++ s) (fuel + 1) pre.length len ports =
      if ¬isDigit c then .ok none
      else if len ≥ devPorts then .ok none
      else if ∀ d ∈ ((c :: t).dropWhile isDigit).takeWhile inWord, d = 0x74 then
        let rest := (c :: t).dropWhile inWord
        portsLoop w devPorts (pre ++ s) fuel
          ((pre ++ s).length - rest.length + if rest = [] then 0 else 1) (len + 1)
          (ports.set len ⟨UInt32.ofNat (min (decimal ((c :: t).takeWhile isDigit)) (2 ^ w - 1)),
            if ((c :: t).dropWhile isDigit).takeWhile inWord = [] then 0 else tagged⟩)
      else .ok none := by
  have hsplit : s.takeWhile isSpace ++ c :: t = s := by
    rw [← h]
    exact List.takeWhile_append_dropWhile
  have hne : s.headD 0 ≠ 0 := by
    cases s with
    | nil => cases h
    | cons d s => exact hs d List.mem_cons_self
  have hc : c ≠ 0 := hs c (hsplit ▸ by simp)
  have hstr : pre ++ s = pre ++ s.takeWhile isSpace ++ c :: t := by
    rw [List.append_assoc, hsplit]
  rw [portsLoop, charAt_append]
  simp only [bind, Except.bind, pure, Except.pure]
  rw [if_neg hne, skipSpaces_append]
  simp only
  rw [hstr, charAt_append]
  simp only [List.headD_cons, hc, if_false]
  by_cases hdigit : isDigit c = true
  · simp only [hdigit, not_true_eq_false, if_false]
    by_cases hfull : len ≥ devPorts
    · rw [if_pos hfull, if_pos hfull]
    · rw [if_neg hfull, if_neg hfull]
      have hroom : len < ports.length := by omega
      have hword := List.takeWhile_append_dropWhile (p := isDigit) (l := c :: t)
      have hdigits : ∀ d ∈ (c :: t).takeWhile isDigit, isDigit d = true := fun d hd =>
        List.mem_takeWhile_imp hd
      have hsome : (c :: t).takeWhile isDigit ≠ [] := by
        rw [List.takeWhile_cons_of_pos hdigit]
        exact List.cons_ne_nil _ _
      -- the string in front of the word, its digits and its flags, as the pointer passes them
      generalize hpre : pre ++ s.takeWhile isSpace = pre' at *
      generalize hds : (c :: t).takeWhile isDigit = ds at *
      generalize hflags : (c :: t).dropWhile isDigit = flags at *
      have hbehind : ∀ d ∈ flags.head?, isDigit d = false := by
        intro d hd
        have hnot := List.head?_dropWhile_not isDigit (c :: t)
        rw [hflags, hd] at hnot
        simpa using hnot
      -- digits are no spaces, so the word ends where its flags end
      have hrest : flags.dropWhile inWord = (c :: t).dropWhile inWord := by
        rw [← hword, List.dropWhile_append_of_pos fun d hd => ?_]
        rw [inWord, isSpace_of_isDigit (hdigits d hd)]
        rfl
      have hend := List.takeWhile_append_dropWhile (p := inWord) (l := flags)
      have hnul : ∀ d ∈ flags, d ≠ 0 := fun d hd => hs d (by
        rw [← hsplit, ← hword]
        simp [hd])
      have hnum : strtoulAt w (pre' ++ c :: t) pre'.length =
          (min (decimal ds) (2 ^ w - 1), (pre' ++ ds).length) := by
        rw [← hword]
        exact strtoulAt_append w hsome hdigits hbehind
      have hloop := flagLoop_append (pre' ++ ds) flags 0 hnul
      rw [List.append_assoc, hword] at hloop
      simp only [hnum, setPort, List.length_set, List.set_set, if_pos hroom, hloop]
      by_cases hall : ∀ d ∈ flags.takeWhile inWord, d = 0x74
      · -- the pointer stands behind the word, on a space or on the `NUL`
        have hptr := charAt_append (pre' ++ ds ++ flags.takeWhile inWord) (flags.dropWhile inWord)
        rw [List.append_assoc, hend, List.append_assoc, hword, hrest] at hptr
        have hlength : (pre' ++ ds ++ flags.takeWhile inWord).length =
            (pre' ++ c :: t).length - ((c :: t).dropWhile inWord).length := by
          rw [← hrest, ← hword]
          have hlen := congrArg List.length hend
          simp only [List.length_append] at hlen ⊢
          omega
        rw [hlength] at hptr
        simp only [if_pos hall, hlength, hptr, UInt32.zero_or]
        have hrest_nul : ∀ d ∈ (c :: t).dropWhile inWord, d ≠ 0 := fun d hd =>
          hnul d ((List.dropWhile_sublist inWord).subset (hrest ▸ hd))
        cases hspace : (c :: t).dropWhile inWord with
        | nil => rfl
        | cons d rest =>
          rw [hspace] at hrest_nul
          have hd : d ≠ 0 := hrest_nul d List.mem_cons_self
          simp only [List.headD_cons, ne_eq, hd, not_false_eq_true, if_true, reduceCtorEq, if_false]
      · simp only [if_neg hall]
  · simp only [hdigit, not_false_eq_true, if_true, Bool.false_eq_true]

/-- From any position of the text, the scanner neither reads behind its end nor writes behind the
    array, and takes the words that are left for ports. -/
theorem portsLoop_spec (w devPorts : Nat) {fuel len : Nat} {pre s : List UInt8}
    {ports : List SwitchPort} (hs : ∀ c ∈ s, c ≠ 0) (hfuel : s.length < fuel)
    (hports : ports.length = devPorts) (hlen : len ≤ devPorts) :
    ∃ r, portsLoop w devPorts (pre ++ s) fuel pre.length len ports = .ok r ∧
      ∀ l, taken r = some l ↔ Continues w devPorts s len ports l := by
  -- `pre` is what the pointer has passed; each turn takes at least one byte of `s`
  induction fuel generalizing pre s len ports with
  | zero => exact absurd hfuel (Nat.not_lt_zero _)
  | succ fuel ih =>
    cases h : s.dropWhile isSpace with
    | nil =>
      exact ⟨_, portsLoop_spaces w devPorts h, taken_eq_some_iff_of_nil (words_of_spaces h) hlen⟩
    | cons c t =>
      have hspace : inWord c = true := by
        have hnot := List.head?_dropWhile_not isSpace s
        rw [h] at hnot
        simpa [inWord] using hnot
      have hwords := words_of_cons h
      rw [← List.takeWhile_cons_of_pos hspace, ← List.dropWhile_cons_of_pos hspace] at hwords
      rw [portsLoop_word w devPorts hs h hports]
      have hreads (port : SwitchPort) := Reads.iff w (c :: t) port
      -- a word without digits, one too many, and one with other flags all end in a refusal
      by_cases hdigit : isDigit c = true
      · rw [if_neg (not_not.mpr hdigit)]
        by_cases hfull : len ≥ devPorts
        · rw [if_pos hfull]
          exact ⟨none, rfl, taken_none_iff fun l hl =>
            absurd (hl.of_words hwords).1 (Nat.not_lt.mpr hfull)⟩
        · rw [if_neg hfull]
          by_cases hflags : ∀ d ∈ ((c :: t).dropWhile isDigit).takeWhile inWord, d = 0x74
          · rw [if_pos hflags]
            have hroom : len < ports.length := by omega
            have hsize (port : SwitchPort) : (ports.set len port).length = devPorts := by
              rw [List.length_set, hports]
            have hfits : len + 1 ≤ devPorts := by omega
            have hdigits : (c :: t).takeWhile isDigit ≠ [] := by
              rw [List.takeWhile_cons_of_pos hdigit]
              exact List.cons_ne_nil _ _
            have hsplit : s = s.takeWhile isSpace ++
                ((c :: t).takeWhile inWord ++ (c :: t).dropWhile inWord) := by
              rw [List.takeWhile_append_dropWhile, ← h, List.takeWhile_append_dropWhile]
            -- the word takes a byte at least, so there is fuel for the rest
            have hpos : ([] : List UInt8).length < fuel := by
              have hlength := congrArg List.length hsplit
              rw [List.takeWhile_cons_of_pos hspace] at hlength
              simp only [List.length_append, List.length_cons] at hlength
              show 0 < fuel
              omega
            generalize hport : SwitchPort.mk _ _ = port at hreads ⊢
            have hnext : ∃ r, portsLoop w devPorts (pre ++ s) fuel
                ((pre ++ s).length - ((c :: t).dropWhile inWord).length +
                  if (c :: t).dropWhile inWord = [] then 0 else 1) (len + 1)
                (ports.set len port) = .ok r ∧ ∀ l, taken r = some l ↔
                  Continues w devPorts ((c :: t).dropWhile inWord) (len + 1)
                    (ports.set len port) l := by
              cases hrest : (c :: t).dropWhile inWord with
              | nil =>
                have hend : ∃ r, portsLoop w devPorts (pre ++ s ++ []) fuel (pre ++ s).length
                    (len + 1) (ports.set len port) = .ok r ∧ ∀ l, taken r = some l ↔
                      Continues w devPorts [] (len + 1) (ports.set len port) l :=
                  ih (fun d hd => absurd hd List.not_mem_nil) hpos (hsize port) hfits
                rwa [List.append_nil] at hend
              | cons d rest =>
                rw [hrest] at hsplit
                -- the space behind the word is passed too
                have hd : isSpace d = true := by
                  have hnot := List.head?_dropWhile_not inWord (c :: t)
                  rw [hrest] at hnot
                  simpa [inWord] using hnot
                have hfront : pre ++ s = pre ++ s.takeWhile isSpace ++ (c :: t).takeWhile inWord ++
                    [d] ++ rest := by
                  conv_lhs => rw [hsplit]
                  simp only [List.append_assoc, List.singleton_append]
                have hlength := congrArg List.length hsplit
                simp only [List.length_append, List.length_cons] at hlength
                simp only [Continues.space_cons_iff hd]
                rw [hfront]
                have hptr : (pre ++ s.takeWhile isSpace ++ (c :: t).takeWhile inWord ++ [d] ++
                    rest).length - (d :: rest).length + 1 = (pre ++ s.takeWhile isSpace ++
                      (c :: t).takeWhile inWord ++ [d]).length := by
                  simp only [List.length_append, List.length_cons, List.length_nil]
                  omega
                rw [if_neg (List.cons_ne_nil d rest), hptr]
                exact ih (fun e he => hs e (by rw [hsplit]; simp [he])) (by omega) (hsize port) hfits
            obtain ⟨r, hr, hrl⟩ := hnext
            refine ⟨r, hr, fun l => (hrl l).trans ?_⟩
            rw [Continues.cons_iff hwords hroom]
            constructor
            · intro hl
              exact ⟨port, (hreads port).mpr ⟨hdigits, hflags, rfl⟩, hl⟩
            · rintro ⟨port', hport', hl⟩
              rw [((hreads port').mp hport').2.2] at hl
              exact hl
          · rw [if_neg hflags]
            refine ⟨none, rfl, taken_none_iff fun l hl => ?_⟩
            obtain ⟨port, hport⟩ := (hl.of_words hwords).2
            exact hflags ((hreads port).mp hport).2.1
      · rw [if_pos hdigit]
        refine ⟨none, rfl, taken_none_iff fun l hl => ?_⟩
        obtain ⟨port, hport⟩ := (hl.of_words hwords).2
        exact ((hreads port).mp hport).1 (List.takeWhile_cons_of_neg hdigit)

/-- What is accepted, and the ports it stands for. -/
theorem setAttrPorts_reads (w devPorts : Nat) (str : Text) :
    ∃ r, setAttrPorts w devPorts str = .ok r ∧
      ∀ l, r = some l ↔ List.Forall₂ (Reads w) (words str) l ∧ l.length ≤ devPorts := by
  -- the pointer starts in front of the whole string, and no port is read yet
  have hloop : ∃ r, portsLoop w devPorts ([] ++ str.val) (str.val.length + 1) ([] : List UInt8).length
      0 (List.replicate devPorts ⟨0, 0⟩) = .ok r ∧ ∀ l, taken r = some l ↔
        Continues w devPorts str 0 (List.replicate devPorts ⟨0, 0⟩) l :=
    portsLoop_spec w devPorts str.property (Nat.lt_succ_self _) List.length_replicate
      (Nat.zero_le devPorts)
  obtain ⟨r, hr, hrl⟩ := hloop
  refine ⟨taken r, ?_, fun l => (hrl l).trans ?_⟩
  · rw [setAttrPorts]
    simp only [List.nil_append, List.length_nil] at hr
    rw [hr]
    rfl
  · constructor
    · rintro ⟨l', hall, hle, rfl⟩
      rw [Nat.zero_add] at hle
      exact ⟨hall, hle⟩
    · rintro ⟨hall, hle⟩
      exact ⟨l, hall, by omega, rfl⟩

/-! ### Printed lists -/

/-- A word with a space behind it. -/
private theorem words_append_space {word : List UInt8} (s : List UInt8) (hne : word ≠ [])
    (hword : ∀ c ∈ word, inWord c = true) : words (word ++ 0x20 :: s) = word :: words s := by
  obtain ⟨c, word, rfl⟩ := List.exists_cons_of_ne_nil hne
  have hc : isSpace c = false := by
    have hin := hword c List.mem_cons_self
    simpa [inWord] using hin
  have hdrop : (c :: word ++ 0x20 :: s).dropWhile isSpace = c :: (word ++ 0x20 :: s) := by
    rw [List.cons_append, List.dropWhile_cons, hc]
    rfl
  have htail : ∀ d ∈ word, inWord d = true := fun d hd => hword d (List.mem_cons_of_mem c hd)
  have hspace : inWord 0x20 = false := by decide
  -- the word ends at the space
  rw [words_of_cons hdrop, List.takeWhile_append_of_pos htail, List.dropWhile_append_of_pos htail,
    List.takeWhile_cons_of_neg (by rw [hspace]; exact Bool.false_ne_true),
    List.dropWhile_cons_of_neg (by rw [hspace]; exact Bool.false_ne_true), List.append_nil,
    words_space_cons s (by decide)]

/-- What is printed for a port, without the space behind it. -/
def portWord (port : SwitchPort) : List UInt8 :=
  decText port.id.toNat ++ List.replicate (if port.flags = tagged then 1 else 0) 0x74

/-- A port whose number is not negative as an `int`, and whose flags are none or `t` only. -/
def Printable (port : SwitchPort) : Prop :=
  port.id.toNat < 2 ^ 31 ∧ (port.flags = 0 ∨ port.flags = tagged)

/-- The first port and the others. -/
private theorem printPorts_cons {port : SwitchPort} (l : List SwitchPort) (h : Printable port) :
    printPorts (port :: l) = portWord port ++ 0x20 :: printPorts l := by
  -- the id is printed as an int, which it fits into
  have hid : port.id.toInt32.toInt = port.id.toNat := by
    have hlt : 2 * port.id.toBitVec.toNat < 2 ^ 32 := by
      have hid := h.1
      rw [UInt32.toNat] at hid
      omega
    exact BitVec.toInt_eq_toNat_of_lt hlt
  have hflags : (if port.flags &&& tagged ≠ 0 then ascii "t" else []) =
      List.replicate (if port.flags = tagged then 1 else 0) 0x74 := by
    rcases h.2 with h0 | h1
    · rw [h0]
      decide
    · rw [h1]
      decide
  rw [printPorts, List.flatMap_cons, hid, hflags]
  show _ ++ printPorts l = _
  rw [portWord, intText, if_neg (by omega), Int.natAbs_natCast]
  simp only [List.append_assoc]
  rfl

/-- The word of a port is read as the port. -/
private theorem reads_portWord {w : Nat} {port : SwitchPort} (hw : 32 ≤ w) (h : Printable port) :
    Reads w (portWord port) port := by
  obtain ⟨hne, hdigits, hvalue⟩ := decText_spec port.id.toNat
  refine ⟨port.id.toNat, _, ⟨_, _, rfl, hne, hdigits, hvalue.symm, rfl⟩, ?_⟩
  have hfits : 2 ^ 32 ≤ 2 ^ w := Nat.pow_le_pow_right (by decide) hw
  have hlt := h.1
  rw [stored, Nat.min_eq_left (by omega), UInt32.ofNat_toNat]
  obtain ⟨id, flags⟩ := port
  rcases h.2 with rfl | rfl <;> rfl

/-- The word of a port has no space. -/
private theorem inWord_portWord (port : SwitchPort) : ∀ c ∈ portWord port, inWord c = true := by
  intro c hc
  rcases List.mem_append.mp hc with hd | ht
  · rw [inWord, isSpace_of_isDigit ((decText_spec _).2.1 c hd)]
    rfl
  · rw [List.eq_of_mem_replicate ht]
    decide

/-- It is not empty. -/
private theorem portWord_ne_nil (port : SwitchPort) : portWord port ≠ [] := fun h =>
  (decText_spec port.id.toNat).1 (List.append_eq_nil_iff.mp h).1

/-- What is printed is read again. -/
theorem forall₂_words_printPorts {w : Nat} {l : List SwitchPort} (hw : 32 ≤ w)
    (h : ∀ port ∈ l, Printable port) : List.Forall₂ (Reads w) (words (printPorts l)) l := by
  induction l with
  | nil =>
    rw [words_of_spaces (by rfl)]
    exact .nil
  | cons port l ih =>
    have hport : Printable port := h port List.mem_cons_self
    rw [printPorts_cons l hport,
      words_append_space _ (portWord_ne_nil port) (inWord_portWord port)]
    exact .cons (reads_portWord hw hport) (ih fun p hp => h p (List.mem_cons_of_mem port hp))

/-- The text of ports has no NUL. -/
theorem printPorts_text {l : List SwitchPort} (h : ∀ port ∈ l, Printable port) :
    ∀ c ∈ printPorts l, c ≠ 0 := by
  induction l with
  | nil => exact fun c hc => absurd hc List.not_mem_nil
  | cons port l ih =>
    rw [printPorts_cons l (h port List.mem_cons_self)]
    intro c hc
    -- digits, a flag, a space or a later word
    rcases List.mem_append.mp hc with hword | hrest
    · rcases List.mem_append.mp hword with hd | ht
      · rintro rfl
        exact absurd ((decText_spec _).2.1 0 hd) (by decide)
      · rw [List.eq_of_mem_replicate ht]
        decide
    · rcases List.mem_cons.mp hrest with rfl | hc
      · decide
      · exact ih (fun p hp => h p (List.mem_cons_of_mem port hp)) c hc

/-- Printed lists are read again, and a string is accepted exactly when it is a list of at most
    `dev->ports` words that stand for ports. Neither reads nor writes leave their arrays. -/
theorem setAttrPorts_printPorts (w devPorts : Nat) (hw : 32 ≤ w) :
    (∀ l : List SwitchPort, l.length ≤ devPorts → (∀ port ∈ l, Printable port) →
      setAttrPorts w devPorts (printPorts l) = .ok (some l)) ∧
    ∀ str : Text, ∃ r, setAttrPorts w devPorts str = .ok r ∧
      ∀ l, r = some l ↔ List.Forall₂ (Reads w) (words str) l ∧ l.length ≤ devPorts := by
  constructor
  · intro l hl hprint
    obtain ⟨r, hr, hrl⟩ := setAttrPorts_reads w devPorts ⟨printPorts l, printPorts_text hprint⟩
    have hsome : r = some l := (hrl l).mpr ⟨forall₂_words_printPorts hw hprint, hl⟩
    rw [hr, hsome]
  · exact setAttrPorts_reads w devPorts

/-- A tagged and an untagged port. -/
theorem setAttrPorts_printPorts_sample :
    setAttrPorts 64 8 (printPorts [⟨3, tagged⟩, ⟨12, 0⟩]) = .ok (some [⟨3, tagged⟩, ⟨12, 0⟩]) := by
  have hprint : ∀ port ∈ [SwitchPort.mk 3 tagged, ⟨12, 0⟩], Printable port := by
    intro port hport
    rcases List.mem_pair.mp hport with rfl | rfl
    · exact ⟨by decide, .inr rfl⟩
    · exact ⟨by decide, .inl rfl⟩
  exact (setAttrPorts_printPorts 64 8 (by decide)).1 _ (by decide) hprint

/-- A number that does not fit into an `unsigned int` is taken for another one. -/
theorem overlong_reduced :
    setAttrPorts 64 8 (ascii "4294967296") = .ok (some [⟨0, 0⟩]) ∧
      ¬List.Forall₂ (fun word port => ∃ isTagged, Denotes word port.id.toNat isTagged)
        (words (ascii "4294967296")) [SwitchPort.mk 0 0] := by
  have htext : ∀ c ∈ ascii "4294967296", c ≠ 0 := by decide +kernel
  have hwords : words (ascii "4294967296") = [ascii "4294967296"] := by
    rw [words_of_cons (by rfl), words_of_spaces (by rfl)]
    rfl
  -- the value does not saturate at 64 bits, and the field takes its low 32 bits
  have hread : Reads 64 (ascii "4294967296") ⟨0, 0⟩ := by
    have hiff := Reads.iff 64 (ascii "4294967296") ⟨0, 0⟩
    exact hiff.mpr (by decide +kernel)
  constructor
  · obtain ⟨r, hr, hrl⟩ := setAttrPorts_reads 64 8 ⟨ascii "4294967296", htext⟩
    have hsome : r = some [⟨0, 0⟩] := (hrl _).mpr ⟨hwords ▸ .cons hread .nil, by decide⟩
    rw [hr, hsome]
  · rw [hwords]
    intro hall
    cases hall with
    | cons hport hnil =>
      obtain ⟨isTagged, ds, k, heq, hne, hds, hvalue, -⟩ := hport
      have hk : k = 0 := by
        by_contra hpos
        have hmem : (0x74 : UInt8) ∈ ascii "4294967296" := by
          rw [heq]
          exact List.mem_append_right ds (List.mem_replicate.mpr ⟨hpos, rfl⟩)
        exact absurd hmem (by decide)
      rw [hk, List.replicate_zero, List.append_nil] at heq
      rw [← heq] at hvalue
      exact absurd hvalue (by decide)

/-! ### The request -/

variable {μ : Type} {nl : NlMsg μ}

/-- The message has the attributes of the ports. -/
theorem sendAttrPorts_attrs {ports : List SwitchPort} {msg msg' : μ}
    {attrs : Option (List Swconfig.PortAttr)} (h : sendAttrPorts nl ports msg = some (msg', attrs)) :
    attrs.getD [] = ports.map portAttr := by
  rw [sendAttrPorts] at h
  split at h
  · rename_i hlen
    rw [List.eq_nil_of_length_eq_zero hlen]
    cases h
    rfl
  · obtain ⟨msg1, -, h⟩ := Option.bind_eq_some_iff.mp h
    obtain ⟨msg2, -, h⟩ := Option.bind_eq_some_iff.mp h
    cases h
    rfl

/-- The port as the driver gets it -/
def driverPort (port : SwitchPort) : Swconfig.SwitchPort where
  id := port.id.toNat
  tagged := decide (port.flags &&& tagged ≠ 0)

/-- The attributes of ports are parsed to the ports. -/
theorem parsePorts_portAttr {max : Nat} {ports : List SwitchPort}
    {sofar : List Swconfig.SwitchPort} (hmax : sofar.length + ports.length ≤ max) :
    Swconfig.parsePorts max (ports.map portAttr) sofar = .ok (sofar ++ ports.map driverPort) := by
  induction ports generalizing sofar with
  | nil => rw [List.map_nil, Swconfig.parsePorts, List.map_nil, List.append_nil]
  | cons port ports ih =>
    rw [List.length_cons] at hmax
    -- the driver has room for one more
    have hroom : ¬sofar.length ≥ max := by omega
    have hnext : (sofar ++ [driverPort port]).length + ports.length ≤ max := by
      rw [List.length_append, List.length_singleton]
      omega
    have hrest := ih hnext
    rw [List.append_assoc, List.singleton_append] at hrest
    rw [List.map_cons, Swconfig.parsePorts, if_neg hroom]
    exact hrest

/-- A text is sent exactly if it is a list of at most `dev->ports` words that stand for ports and the
    message has room for them. The driver is handed the ports of its words, in their order. -/
theorem setAttrString_delivers {σ : Type*} (dev : Swconfig.SwitchDev σ) (nl : NlMsg μ) (w : Nat)
    (msg : μ) (str : Text) :
    ∃ r, setAttrString nl w dev.ports msg str = .ok r ∧
      (r.isSome ↔ ∃ l, List.Forall₂ (Reads w) (words str) l ∧ l.length ≤ dev.ports ∧
        (sendAttrPorts nl l msg).isSome) ∧
      ∀ msg' attrs, r = some (msg', attrs) → ∃ l, List.Forall₂ (Reads w) (words str) l ∧
        ∀ getVlanPorts vlan s,
          Swconfig.setAttrPorts dev getVlanPorts s { vlan := vlan, ports := attrs } =
            (Swconfig.lookupVlanPorts dev getVlanPorts { vlan := vlan, ports := attrs }).elim
              (s, .error .einval) fun v => Swconfig.setVlanPorts dev s v (l.map driverPort) := by
  obtain ⟨r, hr, hrl⟩ := setAttrPorts_reads w dev.ports str
  refine ⟨r.bind fun ports => sendAttrPorts nl ports msg, ?_, ?_, ?_⟩
  · rw [setAttrString, hr]
    rfl
  · constructor
    · intro hsome
      obtain ⟨sent, hsent⟩ := Option.isSome_iff_exists.mp hsome
      obtain ⟨l, hl, hsend⟩ := Option.bind_eq_some_iff.mp hsent
      obtain ⟨hread, hlen⟩ := (hrl l).mp hl
      exact ⟨l, hread, hlen, Option.isSome_of_eq_some hsend⟩
    · rintro ⟨l, hread, hlen, hroom⟩
      rw [(hrl l).mpr ⟨hread, hlen⟩]
      exact hroom
  · intro msg' attrs hsent
    obtain ⟨l, hl, hsend⟩ := Option.bind_eq_some_iff.mp hsent
    obtain ⟨hread, hlen⟩ := (hrl l).mp hl
    refine ⟨l, hread, fun getVlanPorts vlan s => ?_⟩
    have hroom : ([] : List Swconfig.SwitchPort).length + l.length ≤ dev.ports := by
      rw [List.length_nil, Nat.zero_add]
      exact hlen
    -- an attribute that is not there is an empty list for the kernel
    have hparse := parsePorts_portAttr hroom
    rw [← sendAttrPorts_attrs hsend, List.nil_append] at hparse
    cases hlookup : Swconfig.lookupVlanPorts dev getVlanPorts { vlan := vlan, ports := attrs } with
    | none => simp only [Swconfig.setAttrPorts, hlookup, Option.elim_none]
    | some v => simp only [Swconfig.setAttrPorts, hlookup, hparse, Option.elim_some]

end HandsomeMod.Native.Swlib
