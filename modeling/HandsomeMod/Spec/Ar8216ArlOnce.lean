import HandsomeMod.Native.Ar8216

/-!
# What the address table lists

Records with one MAC have no port in common, so that each pair of a port and a MAC is printed once.
A line is as long as a record of the buffer but for two bytes, and there is a line for each port of
a record: with more than 114 pairs, or 112 behind the warning, the length runs out of the buffer.
-/

namespace HandsomeMod.Native.Ar8216.Arl

open ForStd

/-- A MAC has been read with a port. -/
def Seen (entries : List ArlEntry) (port : Nat) (mac : Vector UInt8 6) : Prop :=
  ∃ e ∈ entries, e.mac = mac ∧ e.portmap.getLsbD port

/-- An entry has a port that its MAC did not have before. -/
def Adds (before : List ArlEntry) (a : ArlEntry) : Prop :=
  ∃ port < 16, a.portmap.getLsbD port ∧ ¬Seen before port a.mac

instance (entries : List ArlEntry) (port : Nat) (mac : Vector UInt8 6) :
    Decidable (Seen entries port mac) :=
  inferInstanceAs (Decidable (∃ e ∈ entries, e.mac = mac ∧ e.portmap.getLsbD port))

instance (before : List ArlEntry) (a : ArlEntry) : Decidable (Adds before a) :=
  inferInstanceAs (Decidable (∃ port < 16, a.portmap.getLsbD port ∧ ¬Seen before port a.mac))

/-- The number of entries that add a port -/
def numAdding (before : List ArlEntry) : List ArlEntry → Nat
  | [] => 0
  | a :: entries => (if Adds before a then 1 else 0) + numAdding (before ++ [a]) entries

/-- The entries up to the one that is the last to add a port, of `room` that do -/
def upTo (room : Nat) (before : List ArlEntry) : List ArlEntry → List ArlEntry
  | [] => []
  | a :: entries =>
    if room = 0 then []
    else a :: upTo (if Adds before a then room - 1 else room) (before ++ [a]) entries

/-- The number of the different MACs of all ports -/
def numPairs (dev : Dev) (entries : List ArlEntry) : Nat :=
  ((List.range dev.ports).map fun j =>
    ((entries.filter fun e => e.portmap.getLsbD j).map ArlEntry.mac).dedup.length).sum

/-- The listing has each pair once, if there is a record for each entry that adds a port, and its
length is not more than the buffer has. -/
structure Listed (dev : Dev) (entries : List ArlEntry) (out : Out sizeofArlBuf) : Prop where
  once : numAdding [] entries ≤ numArlRecords →
    ∃ pairs : List (Nat × Vector UInt8 6), pairs.Nodup ∧
      (∀ port mac, (port, mac) ∈ pairs ↔ port < dev.ports ∧ Seen entries port mac) ∧
        out.Holds (header ++ (if numAdding [] entries = numArlRecords then tooMany else []) ++
          pairs.flatMap fun p => line p.1 p.2)
  len_le : out.len ≤ sizeofArlBuf

/-! ### A record -/

/-- Ignoring ports takes them out of a port map. -/
private theorem getLsbD_ignore (x y : BitVec 16) (port : Nat) :
    (x &&& ~~~y).getLsbD port = (x.getLsbD port && !y.getLsbD port) := by
  rw [BitVec.getLsbD_and, BitVec.getLsbD_not]
  by_cases hport : port < 16
  · simp [hport]
  · simp [BitVec.getLsbD_of_ge x port (by omega)]

private theorem getLsbD_zero (port : Nat) : (0 : BitVec 16).getLsbD port = false
    := BitVec.getLsbD_zero

/-- A port map that is not zero has a port. -/
private theorem exists_port {x : BitVec 16} (h : x ≠ 0) : ∃ port < 16, x.getLsbD port := by
  by_contra hall
  push Not at hall
  apply h
  apply BitVec.eq_of_getLsbD_eq
  intro port hport
  rw [getLsbD_zero]
  exact Bool.eq_false_iff.mpr (hall port hport)

/-- The ports of a map are below 16. -/
private theorem lt_of_getLsbD {x : BitVec 16} {port : Nat} (h : x.getLsbD port) : port < 16 := by
  by_contra hport
  rw [BitVec.getLsbD_of_ge x port (by omega)] at h
  cases h

/-- An address is seen at a port in the one or the other part. -/
private theorem seen_append (entries entries' : List ArlEntry) (port : Nat) (mac : Vector UInt8 6) :
    Seen (entries ++ entries') port mac ↔ Seen entries port mac ∨ Seen entries' port mac := by
  simp only [Seen, List.mem_append, or_and_right, exists_or]

/-- An address is seen at the ports of its entry. -/
private theorem seen_singleton (a : ArlEntry) (port : Nat) (mac : Vector UInt8 6) :
    Seen [a] port mac ↔ a.mac = mac ∧ a.portmap.getLsbD port := by
  simp only [Seen, List.mem_singleton, exists_eq_left]

/-- An address is seen in the first entry or in the others. -/
private theorem seen_cons (a : ArlEntry) (entries : List ArlEntry) (port : Nat)
    (mac : Vector UInt8 6) :
    Seen (a :: entries) port mac ↔
      (a.mac = mac ∧ a.portmap.getLsbD port) ∨ Seen entries port mac := by
  rw [← List.singleton_append, seen_append, seen_singleton]

/-- An entry is ignored if its ports have been seen. -/
private theorem ignoreSeen_none {a : ArlEntry} {arlTable : List ArlEntry}
    (h : ignoreSeen a arlTable = none) {port : Nat} (hport : a.portmap.getLsbD port) :
    Seen arlTable port a.mac := by
  -- a port that is taken away was seen in the entry that takes it
  induction arlTable generalizing a with
  | nil => cases h
  | cons a1 rest ih =>
    rw [seen_cons]
    rw [ignoreSeen] at h
    split at h
    · next hmac =>
      by_cases hseen : a1.portmap.getLsbD port
      · exact .inl ⟨hmac.symm, hseen⟩
      · -- The port is left.
        have hleft : (a.portmap &&& ~~~a1.portmap).getLsbD port := by
          rw [getLsbD_ignore, hport, Bool.eq_false_iff.mpr hseen]
          rfl
        right
        simp only at h
        split at h
        · next hzero =>
          rw [hzero, getLsbD_zero] at hleft
          cases hleft
        · exact ih (a := { a with portmap := a.portmap &&& ~~~a1.portmap }) h hleft
    · exact .inr (ih h hport)

/-- Otherwise it is left with the ports that have not. -/
private theorem ignoreSeen_some {a r : ArlEntry} {arlTable : List ArlEntry}
    (h : ignoreSeen a arlTable = some r) : r.mac = a.mac ∧
      ∀ port, r.portmap.getLsbD port ↔ a.portmap.getLsbD port ∧ ¬Seen arlTable port a.mac := by
  -- each entry of the address takes its ports away from the record
  induction arlTable generalizing a with
  | nil =>
    cases h
    simp [Seen]
  | cons a1 rest ih =>
    simp only [seen_cons]
    rw [ignoreSeen] at h
    split at h
    · next hmac =>
      simp only at h
      split at h
      · cases h
      · obtain ⟨hrmac, hports⟩ := ih h
        refine ⟨hrmac, fun port => ?_⟩
        rw [hports, getLsbD_ignore]
        simp only [Bool.and_eq_true, Bool.not_eq_true', ← Bool.not_eq_true]
        simp only [hmac, true_and]
        tauto
    · next hmac =>
      obtain ⟨hrmac, hports⟩ := ih h
      refine ⟨hrmac, fun port => ?_⟩
      rw [hports]
      have hne : a1.mac ≠ a.mac := fun heq => hmac heq.symm
      simp only [hne, false_and, false_or]

/-- What is left of an entry is not empty. -/
private theorem ignoreSeen_ne_zero {a r : ArlEntry} {arlTable : List ArlEntry} (ha : a.portmap ≠ 0)
    (h : ignoreSeen a arlTable = some r) : r.portmap ≠ 0 := by
  induction arlTable generalizing a with
  | nil =>
    cases h
    exact ha
  | cons a1 rest ih =>
    rw [ignoreSeen] at h
    split at h
    · simp only at h
      split at h
      · cases h
      -- ports were taken out, and some were left
      · next hne => exact ih hne h
    · exact ih ha h

/-! ### The records -/

/-- The records have the pairs of the entries that were read, each in one record. -/
structure Records (before arlTable : List ArlEntry) : Prop where
  seen : ∀ port mac, Seen arlTable port mac ↔ Seen before port mac
  apart : arlTable.Pairwise fun a b =>
    a.mac = b.mac → ∀ port, ¬(a.portmap.getLsbD port ∧ b.portmap.getLsbD port)

variable {before arlTable : List ArlEntry}

/-- An entry that is ignored adds nothing. -/
theorem Records.ignored (h : Records before arlTable) {a : ArlEntry}
    (hnone : ignoreSeen a arlTable = none) :
    ¬Adds before a ∧ Records (before ++ [a]) arlTable := by
  have hold : ∀ port, a.portmap.getLsbD port → Seen before port a.mac := fun port hport =>
    (h.seen port a.mac).mp (ignoreSeen_none hnone hport)
  refine ⟨?_, fun port mac => ?_, h.apart⟩
  · rintro ⟨port, -, hport, hnew⟩
    exact hnew (hold port hport)
  · rw [h.seen, seen_append, seen_singleton]
    refine ⟨.inl, ?_⟩
    rintro (hseen | ⟨rfl, hport⟩)
    · exact hseen
    · exact hold port hport

/-- An entry that is kept becomes the record of the ports that it adds. -/
theorem Records.kept (h : Records before arlTable) {a r : ArlEntry} (ha : a.portmap ≠ 0)
    (hsome : ignoreSeen a arlTable = some r) :
    Adds before a ∧ Records (before ++ [a]) (arlTable ++ [r]) := by
  obtain ⟨hmac, hports⟩ := ignoreSeen_some hsome
  simp only [h.seen] at hports
  refine ⟨?_, fun port mac => ?_, ?_⟩
  · obtain ⟨port, hlt, hport⟩ := exists_port (ignoreSeen_ne_zero ha hsome)
    obtain ⟨hadds, hnew⟩ := (hports port).mp hport
    exact ⟨port, hlt, hadds, hnew⟩
  · rw [seen_append, seen_append, seen_singleton, seen_singleton, h.seen, hports, hmac]
    constructor
    · rintro (hseen | ⟨rfl, hport, -⟩)
      · exact .inl hseen
      · exact .inr ⟨rfl, hport⟩
    · rintro (hseen | ⟨rfl, hport⟩)
      · exact .inl hseen
      · by_cases hseen : Seen before port a.mac
        · exact .inl hseen
        · exact .inr ⟨rfl, hport, hseen⟩
  · rw [List.pairwise_append]
    refine ⟨h.apart, List.pairwise_singleton _ _, fun b hb r' hr' heq port hboth => ?_⟩
    obtain rfl := List.mem_singleton.mp hr'
    -- The former record has the port, so that it is not one of the new one.
    have hseen : Seen arlTable port a.mac := ⟨b, hb, heq.trans hmac, hboth.1⟩
    exact ((hports port).mp hboth.2).2 ((h.seen port a.mac).mp hseen)

/-- Without room for a record, the first entries are none. -/
private theorem upTo_zero (before entries : List ArlEntry) : upTo 0 before entries = [] := by
  cases entries <;> rfl

/-- The whole loop -/
theorem Records.readArl (h : Records before arlTable) (hroom : arlTable.length ≤ numArlRecords)
    {entries : List ArlEntry} (hne : ∀ a ∈ entries, a.portmap ≠ 0) :
    Records (before ++ upTo (numArlRecords - arlTable.length) before entries)
        (readArl entries arlTable) ∧
      (readArl entries arlTable).length =
        min numArlRecords (arlTable.length + numAdding before entries) := by
  -- Induction on the entries that are left; `before` are those that were read.
  induction entries generalizing before arlTable with
  | nil =>
    rw [upTo, List.append_nil]
    exact ⟨h, by rw [Arl.readArl, numAdding]; omega⟩
  | cons a entries ih =>
    have hrest : ∀ a ∈ entries, a.portmap ≠ 0 := fun b hb => hne b (List.mem_cons_of_mem _ hb)
    rw [Arl.readArl]
    -- the loop ends when the table is full
    split
    · next hfull =>
      rw [hfull, Nat.sub_self, upTo_zero, List.append_nil]
      exact ⟨h, by omega⟩
    · next hnot =>
      have hpos : numArlRecords - arlTable.length ≠ 0 := by omega
      rw [upTo, if_neg hpos, numAdding]
      -- an entry whose address is there already only adds its ports to that record
      cases hignore : ignoreSeen a arlTable with
      | none =>
        obtain ⟨hadds, hrecords⟩ := h.ignored hignore
        obtain ⟨hinv, hlen⟩ := ih hrecords hroom hrest
        rw [if_neg hadds, if_neg hadds, Nat.zero_add]
        rw [List.append_assoc] at hinv
        exact ⟨hinv, hlen⟩
      | some r =>
        obtain ⟨hadds, hrecords⟩ := h.kept (hne a List.mem_cons_self) hignore
        have hlength : (arlTable ++ [r]).length = arlTable.length + 1 := List.length_append
        obtain ⟨hinv, hlen⟩ := ih hrecords (by omega) hrest
        rw [if_pos hadds, if_pos hadds, Nat.sub_sub]
        rw [List.append_assoc, hlength] at hinv
        rw [hlength, Nat.add_assoc] at hlen
        exact ⟨hinv, hlen⟩

/-- Entries that add nothing have been seen. -/
private theorem seen_of_numAdding_zero {entries : List ArlEntry} (h : numAdding before entries = 0)
    (port : Nat) (mac : Vector UInt8 6) :
    Seen (before ++ entries) port mac ↔ Seen before port mac := by
  induction entries generalizing before with
  | nil => rw [List.append_nil]
  | cons a entries ih =>
    rw [numAdding] at h
    -- the first entry adds no pair, so every port of it was seen with the address
    have hadds : ¬Adds before a := by
      intro hadds
      rw [if_pos hadds] at h
      omega
    rw [← List.singleton_append, ← List.append_assoc, ih (by omega), seen_append, seen_singleton]
    refine ⟨?_, .inl⟩
    rintro (hseen | ⟨rfl, hport⟩)
    · exact hseen
    · by_contra hnew
      exact hadds ⟨port, lt_of_getLsbD hport, hport, hnew⟩

/-- With room for all that add a port, nothing is left out. -/
theorem seen_upTo {entries : List ArlEntry} {room : Nat} (h : numAdding before entries ≤ room)
    (port : Nat) (mac : Vector UInt8 6) :
    Seen (before ++ upTo room before entries) port mac ↔ Seen (before ++ entries) port mac := by
  -- each entry that adds a record uses up one of the room
  induction entries generalizing before room with
  | nil => rfl
  | cons a entries ih =>
    rw [upTo]
    split
    · next hzero =>
      rw [List.append_nil, seen_of_numAdding_zero (by omega)]
    · next hpos =>
      rw [numAdding] at h
      have hroom : numAdding (before ++ [a]) entries ≤
          if Adds before a then room - 1 else room := by
        split at h
        · next hadds =>
          rw [if_pos hadds]
          omega
        · next hadds =>
          rw [if_neg hadds]
          omega
      have hrest := ih hroom
      rwa [List.append_assoc, List.append_assoc, List.singleton_append,
        List.singleton_append] at hrest

/-! ### The listing -/

/-- The pairs in the order in which they are printed -/
def pairsOf (dev : Dev) (arlTable : List ArlEntry) : List (Nat × Vector UInt8 6) :=
  (List.range dev.ports).flatMap fun j =>
    (arlTable.filter fun a => a.portmap.getLsbD j).map fun a => (j, a.mac)

/-- The printed pairs are those of the ports of the device. -/
theorem mem_pairsOf (dev : Dev) (arlTable : List ArlEntry) (port : Nat) (mac : Vector UInt8 6) :
    (port, mac) ∈ pairsOf dev arlTable ↔ port < dev.ports ∧ Seen arlTable port mac := by
  simp only [pairsOf, List.mem_flatMap, List.mem_range, List.mem_map, List.mem_filter, Seen,
    Prod.mk.injEq]
  constructor
  · rintro ⟨j, hj, a, ⟨ha, hport⟩, rfl, rfl⟩
    exact ⟨hj, a, ha, rfl, hport⟩
  · rintro ⟨hj, a, ha, rfl, hport⟩
    exact ⟨port, hj, a, ⟨ha, hport⟩, rfl, rfl⟩

/-- The MACs of a port are different. -/
theorem Records.nodup_macs (h : Records before arlTable) (j : Nat) :
    ((arlTable.filter fun a => a.portmap.getLsbD j).map ArlEntry.mac).Nodup := by
  rw [List.Nodup, List.pairwise_map, List.pairwise_filter]
  exact h.apart.imp fun hab ha hb hmac => hab hmac j ⟨ha, hb⟩

/-- No pair is printed twice. -/
theorem Records.nodup_pairsOf (h : Records before arlTable) (dev : Dev) :
    (pairsOf dev arlTable).Nodup := by
  rw [pairsOf, List.nodup_flatMap]
  constructor
  -- of one port, each address is listed once
  · intro j _
    have hmap : ((arlTable.filter fun a => a.portmap.getLsbD j).map fun a => (j, a.mac)) =
        ((arlTable.filter fun a => a.portmap.getLsbD j).map ArlEntry.mac).map (Prod.mk j) := by
      rw [List.map_map]
      rfl
    rw [hmap]
    exact (h.nodup_macs j).map (Prod.mk_right_injective j)
  -- pairs of two ports differ in the port
  · refine List.nodup_range.imp fun hne p hp hp' => hne ?_
    simp only [List.mem_map] at hp hp'
    obtain ⟨a, -, rfl⟩ := hp
    obtain ⟨b, -, heq⟩ := hp'
    exact (congrArg Prod.fst heq).symm

/-- The number of pairs, by what was read -/
theorem Records.length_pairsOf (h : Records before arlTable) (dev : Dev) :
    (pairsOf dev arlTable).length = numPairs dev before := by
  rw [pairsOf, List.length_flatMap, numPairs]
  congr 1
  apply List.map_congr_left
  intro j _
  -- for each port, the addresses recorded are those of the entries, each once
  have hperm : ((arlTable.filter fun a => a.portmap.getLsbD j).map ArlEntry.mac).Perm
      ((before.filter fun e => e.portmap.getLsbD j).map ArlEntry.mac).dedup := by
    rw [List.perm_ext_iff_of_nodup (h.nodup_macs j) (List.nodup_dedup _)]
    intro mac
    have hseen := h.seen j mac
    simp only [Seen] at hseen
    simp only [List.mem_dedup, List.mem_map, List.mem_filter]
    constructor
    · rintro ⟨a, ⟨ha, hport⟩, rfl⟩
      obtain ⟨e, he, hmac, hport'⟩ := hseen.mp ⟨a, ha, rfl, hport⟩
      exact ⟨e, ⟨he, hport'⟩, hmac⟩
    · rintro ⟨e, ⟨he, hport⟩, rfl⟩
      obtain ⟨a, ha, hmac, hport'⟩ := hseen.mpr ⟨e, he, rfl, hport⟩
      exact ⟨a, ⟨ha, hport'⟩, hmac⟩
  rw [List.length_map, ← hperm.length_eq, List.length_map]

/-- The two loops print the lines of the pairs. -/
theorem swGetArlTable_eq (dev : Dev) (entries : List ArlEntry) (arlBuf : Mem) :
    swGetArlTable dev entries arlBuf =
      (({ mem := arlBuf, len := 0 } : Out sizeofArlBuf).print header).prints
        ((if (readArl entries []).length = numArlRecords then [tooMany] else []) ++
          (pairsOf dev (readArl entries [])).map fun p => line p.1 p.2) := by
  have hrecords : ∀ (j : Nat) (arlTable : List ArlEntry) (out : Out sizeofArlBuf),
      arlTable.foldl (fun out a =>
          if a.portmap.getLsbD j then out.print (line j a.mac) else out) out =
        out.prints ((arlTable.filter fun a => a.portmap.getLsbD j).map fun a => line j a.mac) := by
    intro j arlTable out
    rw [Out.prints, List.foldl_map, List.foldl_filter]
  -- the two loops print the lines port by port, in the order of the records
  have hports : ∀ (arlTable : List ArlEntry) (ports : List Nat) (out : Out sizeofArlBuf),
      ports.foldl (fun out j => arlTable.foldl (fun out a =>
          if a.portmap.getLsbD j then out.print (line j a.mac) else out) out) out =
        out.prints (ports.flatMap fun j =>
          (arlTable.filter fun a => a.portmap.getLsbD j).map fun a => line j a.mac) := by
    intro arlTable ports out
    induction ports generalizing out with
    | nil => rfl
    | cons j ports ih =>
      rw [List.foldl_cons, hrecords, ih, List.flatMap_cons, Out.prints_append]
  have hlines : ∀ arlTable : List ArlEntry,
      (pairsOf dev arlTable).map (fun p => line p.1 p.2) =
        (List.range dev.ports).flatMap fun j =>
          (arlTable.filter fun a => a.portmap.getLsbD j).map fun a => line j a.mac := by
    intro arlTable
    rw [pairsOf, List.map_flatMap]
    simp only [List.map_map]
    rfl
  rw [swGetArlTable, hports, Out.prints_append, hlines]
  split <;> rfl

/-! ### Its length -/

/-- `%02x` prints two digits. -/
private theorem length_hex2 (b : UInt8) : (hex2 b).length = 2 := by
  have hlt : b.toUInt32.toNat < 256 := by
    rw [UInt8.toNat_toUInt32]
    exact b.toNat_lt
  -- All digits but the last two are zeros.
  have hzeros : ((hexDigits b.toUInt32).take (8 - 2)).dropWhile (· == 0) = [] := by
    rw [List.dropWhile_eq_nil_iff]
    intro d hd
    rw [hexDigits, ← List.map_take] at hd
    obtain ⟨i, hi, rfl⟩ := List.mem_map.mp hd
    have hi6 : i < 6 := List.mem_range.mp hi
    have hpow : 16 ^ 2 ≤ 16 ^ (7 - i) := Nat.pow_le_pow_right (by decide) (by omega)
    rw [Nat.div_eq_of_lt (by omega)]
    rfl
  rw [hex2, hexText, hzeros, List.nil_append, List.length_map, List.length_drop, length_hexDigits]

/-- A line has 30 characters. -/
private theorem length_line {port : Nat} (h : port < 10) (mac : Vector UInt8 6) :
    (line port mac).length = 30 := by
  have hdigit : ∀ n < 10, (decText n).length = 1 := by decide
  have hport : (ascii "Port ").length = 5 := by decide
  have hmac : (ascii ": MAC ").length = 6 := by decide
  have hcolon : (ascii ":").length = 1 := by decide
  have hnewline : (ascii "\n").length = 1 := by decide
  simp only [line, List.length_append, length_hex2, hdigit port h, hport, hmac, hcolon, hnewline]

/-- The length of the lines of a table. -/
private theorem length_lines (dev : Dev) {pairs : List (Nat × Vector UInt8 6)}
    (h : ∀ p ∈ pairs, p.1 < dev.ports) :
    (pairs.flatMap fun p => line p.1 p.2).length = 30 * pairs.length := by
  induction pairs with
  | nil => rfl
  | cons p pairs ih =>
    have hports := dev.ports_le
    have hp := h p List.mem_cons_self
    rw [List.flatMap_cons, List.length_append, length_line (by omega),
      ih fun q hq => h q (List.mem_cons_of_mem _ hq), List.length_cons]
    omega

/-- The length of the first line. -/
theorem length_header : header.length = 25 := by decide

/-- The length of the line about entries that were left out. -/
private theorem length_tooMany : tooMany.length = 55 := by decide

/-- The records of a whole reading -/
theorem records_readArl {entries : List ArlEntry} (hne : ∀ a ∈ entries, a.portmap ≠ 0) :
    Records (upTo numArlRecords [] entries) (readArl entries []) ∧
      ((readArl entries []).length = numArlRecords ↔ numArlRecords ≤ numAdding [] entries) := by
  have hstart : Records [] [] := ⟨fun _ _ => Iff.rfl, List.Pairwise.nil⟩
  obtain ⟨hinv, hlen⟩ := hstart.readArl (Nat.zero_le _) hne
  rw [List.nil_append, List.length_nil, Nat.sub_zero] at hinv
  rw [List.length_nil, Nat.zero_add] at hlen
  exact ⟨hinv, by omega⟩

/-- What is printed behind the header -/
def body (dev : Dev) (entries : List ArlEntry) : List UInt8 :=
  (if numArlRecords ≤ numAdding [] entries then tooMany else []) ++
    (pairsOf dev (readArl entries [])).flatMap fun p => line p.1 p.2

/-- What is printed behind the first line. -/
theorem body_eq (dev : Dev) {entries : List ArlEntry} (hne : ∀ a ∈ entries, a.portmap ≠ 0) :
    ((if (readArl entries []).length = numArlRecords then [tooMany] else []) ++
      (pairsOf dev (readArl entries [])).map fun p => line p.1 p.2).flatten = body dev entries := by
  simp only [(records_readArl hne).2]
  rw [body, List.flatten_append, ← List.flatMap_def]
  split
  · rw [List.flatten_singleton]
  · rfl

/-- The length of what is printed behind the first line. -/
theorem length_body (dev : Dev) {entries : List ArlEntry} (hne : ∀ a ∈ entries, a.portmap ≠ 0) :
    (body dev entries).length = (if numArlRecords ≤ numAdding [] entries then 55 else 0) +
      30 * numPairs dev (upTo numArlRecords [] entries) := by
  have hports : ∀ p ∈ pairsOf dev (readArl entries []), p.1 < dev.ports := fun p hp =>
    ((mem_pairsOf dev _ p.1 p.2).mp hp).1
  rw [body, List.length_append, length_lines dev hports, (records_readArl hne).1.length_pairsOf dev]
  split
  · rw [length_tooMany]
  · rfl

/-- The header is the first piece. -/
theorem print_header (arlBuf : Mem) :
    (({ mem := arlBuf, len := 0 } : Out sizeofArlBuf).print header).Holds header ∧
      (({ mem := arlBuf, len := 0 } : Out sizeofArlBuf).print header).len = header.length :=
  Out.holds_print_start (by decide) rfl (by rw [length_header]; decide)

/-- The text stays inside of the buffer as long as the pairs are few enough. -/
theorem len_le_iff (dev : Dev) {entries : List ArlEntry} (arlBuf : Mem)
    (hne : ∀ a ∈ entries, a.portmap ≠ 0) :
    (swGetArlTable dev entries arlBuf).len ≤ sizeofArlBuf ↔
      numPairs dev (upTo numArlRecords [] entries) ≤
        if numArlRecords ≤ numAdding [] entries then 112 else 114 := by
  have hbuf : sizeofArlBuf = 3456 := rfl
  have hlen0 := (print_header arlBuf).2
  rw [length_header] at hlen0
  rw [swGetArlTable_eq, Out.prints_len_le_iff (by decide) (by omega), body_eq dev hne,
    length_body dev hne, hlen0]
  split <;> omega

/-- **The listing has each pair once and stays in the buffer exactly if there are not more than 114
pairs, or 112 if there are records for 100 entries.** -/
theorem listed_iff (dev : Dev) {entries : List ArlEntry} (arlBuf : Mem)
    (hne : ∀ a ∈ entries, a.portmap ≠ 0) :
    Listed dev entries (swGetArlTable dev entries arlBuf) ↔
      numPairs dev (upTo numArlRecords [] entries) ≤
        if numArlRecords ≤ numAdding [] entries then 112 else 114 := by
  rw [← len_le_iff dev arlBuf hne]
  refine ⟨Listed.len_le, fun hle => ⟨fun hroom => ?_, hle⟩⟩
  have hrecords := (records_readArl hne).1
  refine ⟨pairsOf dev (readArl entries []), hrecords.nodup_pairsOf dev, fun port mac => ?_, ?_⟩
  · have hseen := seen_upTo hroom port mac
    rw [List.nil_append, List.nil_append] at hseen
    rw [mem_pairsOf, hrecords.seen, hseen]
  · obtain ⟨hheader, hlen0⟩ := print_header arlBuf
    -- No listing is as long as the buffer, so that there is room for the last zero.
    have hfits : (({ mem := arlBuf, len := 0 } : Out sizeofArlBuf).print header).len +
        (body dev entries).length < sizeofArlBuf := by
      have hbuf : sizeofArlBuf = 3456 := rfl
      rw [len_le_iff dev arlBuf hne] at hle
      rw [hlen0, length_header, length_body dev hne]
      split at hle <;> split <;> omega
    rw [← body_eq dev hne] at hfits
    have hholds := (Out.Holds.prints (by decide) hheader hlen0 hfits).1
    have hhead : (if numAdding [] entries = numArlRecords then tooMany else []) =
        if numArlRecords ≤ numAdding [] entries then tooMany else [] := by
      by_cases heq : numAdding [] entries = numArlRecords
      · rw [if_pos heq, if_pos heq.ge]
      · rw [if_neg heq, if_neg (by omega)]
    rw [body_eq dev hne, body, ← List.append_assoc] at hholds
    rw [hhead, swGetArlTable_eq]
    exact hholds

/-- A switch of seven ports -/
def sampleDev : Dev where
  ports := 7
  vlans := 128
  ports_le := by decide

def sampleMac (i : Nat) : Vector UInt8 6 := #v[UInt8.ofNat i, 0, 0, 0, 0, 2]

/-- Two entries of a MAC with a port in common, and one of another MAC -/
theorem listed_common_port :
    Listed sampleDev [⟨0x3, sampleMac 1⟩, ⟨0x6, sampleMac 1⟩, ⟨0x41, sampleMac 2⟩]
      (swGetArlTable sampleDev [⟨0x3, sampleMac 1⟩, ⟨0x6, sampleMac 1⟩, ⟨0x41, sampleMac 2⟩]
        fun _ => 0) :=
  (listed_iff sampleDev _ (by decide)).mpr (by decide)

/-- Seventeen groups with all seven ports -/
def groups : List ArlEntry := (List.range 17).map fun i => ⟨0x7f, sampleMac i⟩

/-- Their 119 lines do not fit. -/
theorem groups_not_listed :
    ¬Listed sampleDev groups (swGetArlTable sampleDev groups fun _ => 0) := by
  intro h
  have hle := (len_le_iff sampleDev (fun _ => 0) (by decide)).mp h.len_le
  revert hle
  decide

end HandsomeMod.Native.Ar8216.Arl
