import HandsomeMod.ForStd.Except
import HandsomeMod.Native.Swconfig

/-!
# Completeness of the switch enumeration

The position that a call saves counts the switch that did not fit, so the next call skips it. A dump
is complete exactly if all switches fit into the first message.
-/

namespace HandsomeMod.Native.Swconfig.Dump

open ForStd

variable {skb skb' : SkBuff} {start : Nat} {devs : List SwitchDev} {d : DumpState}

/-! ### Sizes -/

/-- What was put takes its room. -/
theorem put_ok {n : Nat} (h : skb.put n = .ok skb') :
    skb' = { skb with len := skb.len + n } ∧ skb.len + n ≤ skb.size := by
  unfold SkBuff.put at h
  split at h
  · next hle => exact ⟨(Except.ok.inj h).symm, hle⟩
  · cases h

/-- An attribute takes at least the room of its header. -/
private theorem nlaPut_ok {n : Nat} (h : nlaPut n skb = .ok skb') :
    skb'.size = skb.size ∧ skb.len + (4 + n) ≤ skb'.len ∧ skb'.len ≤ skb.size := by
  obtain ⟨rfl, hle⟩ := put_ok h
  exact ⟨rfl, by dsimp only; omega, hle⟩

/-- The message does not shrink by a port. -/
private theorem putPort_ok {port : SwitchPortmap} (h : putPort port skb = .ok skb') :
    skb.len ≤ skb'.len := by
  unfold putPort at h
  split at h
  · obtain ⟨skb1, hstring, hvirt⟩ := bind_ok h
    obtain ⟨-, hlen1, -⟩ := nlaPut_ok hstring
    obtain ⟨-, hlen2, -⟩ := nlaPut_ok hvirt
    omega
  · exact Nat.le_of_eq (congrArg SkBuff.len (Except.ok.inj h))

/-- The message does not shrink by a list of ports. -/
private theorem putPorts_ok {ports sent : List SwitchPortmap}
    (h : putPorts ports skb = .ok (skb', sent)) : skb.len ≤ skb'.len := by
  induction ports generalizing skb sent with
  | nil =>
    obtain ⟨rfl, -⟩ := Prod.mk.inj (Except.ok.inj h)
    exact Nat.le_refl _
  | cons port ports ih =>
    unfold putPorts at h
    split at h
    · next skb1 hnest =>
      -- without room for the entry the port is skipped
      have hsame : skb1 = skb := by
        unfold nlaNestStart nlaPut SkBuff.put at hnest
        split at hnest
        · cases hnest
        · exact (Except.error.inj hnest).symm
      rw [← hsame]
      exact ih h
    · next skb1 hnest =>
      obtain ⟨-, hlen1, -⟩ := nlaPut_ok hnest
      obtain ⟨skb2, hentry, h⟩ := bind_ok h
      obtain ⟨⟨skb3, sent3⟩, hrest, h⟩ := bind_ok h
      obtain ⟨rfl, -⟩ := Prod.mk.inj (Except.ok.inj h)
      have hlen3 := ih hrest
      have hlen2 := putPort_ok hentry
      omega

/-- A switch needs more room than the header of its message. -/
private theorem putSwitch_ok {dev : SwitchDev} {ports : List SwitchPortmap}
    (h : putSwitch dev skb = .ok (skb', ports)) :
    skb.len < skb'.len ∧ skb.len + 20 ≤ skb.size := by
  unfold putSwitch at h
  obtain ⟨skb1, h1, h⟩ := bind_ok h
  obtain ⟨skb2, h2, h⟩ := bind_ok h
  obtain ⟨skb3, h3, h⟩ := bind_ok h
  obtain ⟨skb4, h4, h⟩ := bind_ok h
  obtain ⟨skb5, h5, h⟩ := bind_ok h
  obtain ⟨skb6, h6, h⟩ := bind_ok h
  obtain ⟨skb7, h7, h⟩ := bind_ok h
  obtain ⟨skb8, h8, h⟩ := bind_ok h
  have hports := putPorts_ok h
  -- each attribute lengthens the message inside its buffer
  obtain ⟨hs1, hl1, -⟩ := nlaPut_ok h1
  obtain ⟨hs2, hl2, -⟩ := nlaPut_ok h2
  obtain ⟨hs3, hl3, hb3⟩ := nlaPut_ok h3
  obtain ⟨hs4, hl4, -⟩ := nlaPut_ok h4
  obtain ⟨hs5, hl5, hb5⟩ := nlaPut_ok h5
  obtain ⟨hs6, hl6, hb6⟩ := nlaPut_ok h6
  obtain ⟨hs7, hl7, hb7⟩ := nlaPut_ok h7
  obtain ⟨hs8, hl8, hb8⟩ := nlaPut_ok h8
  omega

/-- A switch is sent or not; the missing header never gets that far. -/
private theorem sendSwitch_cases (skb : SkBuff) (dev : SwitchDev) :
    (∃ msg report, sendSwitch skb dev = .sent msg report ∧ report.dev = dev ∧ 0 < msg.len) ∨
      ∃ msg, sendSwitch skb dev = .failed msg := by
  unfold sendSwitch genlmsgPut
  cases hput : skb.put 20 with
  | ok msg =>
    dsimp only
    cases hsend : putSwitch dev msg with
    | ok res =>
      obtain ⟨skb', ports⟩ := res
      obtain ⟨hlen, -⟩ := putSwitch_ok hsend
      exact Or.inl ⟨skb', { dev := dev, ports := ports }, rfl, rfl, by omega⟩
    | error msg' => exact Or.inr ⟨skb, rfl⟩
  -- no room for the header, so there is none for the attributes either
  | error msg =>
    dsimp only
    unfold SkBuff.put at hput
    split at hput
    · cases hput
    · next hfull =>
      obtain rfl := Except.error.inj hput
      cases hsend : putSwitch dev skb with
      | ok res =>
        obtain ⟨skb', ports⟩ := res
        obtain ⟨-, hroom⟩ := putSwitch_ok hsend
        exact absurd hroom hfull
      | error msg' => exact Or.inr ⟨msg', rfl⟩

/-! ### One call -/

/-- The reports of a call are of switches between the old and the new position, and a call moves on
    unless there is no switch left. -/
theorem dumpLoop_spec (start : Nat) (devs : List SwitchDev) (d : DumpState) :
    ∃ d' new, dumpLoop start devs d = some d' ∧ d'.reports = d.reports ++ new ∧
      d'.idx ≤ d.idx + devs.length ∧ new.length + max start d.idx ≤ max start d'.idx ∧
      (start < d.idx + devs.length → start < d'.idx) ∧
      (d.idx + devs.length ≤ start → d' = { d with idx := d.idx + devs.length }) := by
  -- the index grows by one for each switch, the reports only for those from `start` on
  induction devs generalizing d with
  | nil =>
    refine ⟨d, [], rfl, (List.append_nil _).symm, Nat.le_refl _, ?_, fun h => h, fun _ => rfl⟩
    simp
  | cons dev devs ih =>
    unfold dumpLoop
    dsimp only
    by_cases hskip : d.idx + 1 ≤ start
    -- a switch before `start` is passed over
    · obtain ⟨d', new, heq, hreports, hidx, hlen, hmove, hend⟩ := ih { d with idx := d.idx + 1 }
      rw [if_pos hskip]
      dsimp only at hidx hlen hmove hend
      refine ⟨d', new, heq, hreports, ?_, ?_, ?_, ?_⟩
      · rw [List.length_cons]
        omega
      · omega
      · rw [List.length_cons]
        omega
      · rw [List.length_cons]
        intro hle
        rw [hend (by omega)]
        congr 1
        omega
    · rw [if_neg hskip]
      obtain ⟨msg, report, hsend, -, -⟩ | ⟨msg, hsend⟩ := sendSwitch_cases d.skb dev
      · obtain ⟨d', new, heq, hreports, hidx, hlen, hmove, -⟩ :=
          ih { d with idx := d.idx + 1, skb := msg, reports := d.reports ++ [report] }
        rw [hsend]
        dsimp only at hreports hidx hlen hmove
        refine ⟨d', report :: new, heq, ?_, ?_, ?_, ?_, ?_⟩
        · rw [hreports, List.append_assoc]
          rfl
        · rw [List.length_cons]
          omega
        · rw [List.length_cons]
          omega
        · intro _
          omega
        · rw [List.length_cons]
          omega
      · rw [hsend]
        -- a switch that does not fit ends the call, but its index is counted
        refine ⟨{ d with idx := d.idx + 1, skb := msg }, [], rfl, (List.append_nil _).symm, ?_, ?_,
          ?_, ?_⟩
        · rw [List.length_cons]
          dsimp only
          omega
        · rw [List.length_nil]
          dsimp only
          omega
        · dsimp only
          omega
        · rw [List.length_cons]
          omega

/-! ### The first call -/

/-- The switches can be sent one after the other. -/
def SendsAll : SkBuff → List SwitchDev → Prop
  | _, [] => True
  | skb, dev :: devs => ∃ msg report, sendSwitch skb dev = .sent msg report ∧ SendsAll msg devs

/-- Without a failure a call reports all switches. -/
theorem dumpLoop_of_sendsAll (h : SendsAll d.skb devs) :
    ∃ d', dumpLoop 0 devs d = some d' ∧
      d'.reports.map Report.dev = d.reports.map Report.dev ++ devs ∧
      d'.idx = d.idx + devs.length ∧ (devs = [] → d' = d) ∧ (devs ≠ [] → 0 < d'.skb.len) := by
  -- the message grows by each report, and all of them fit
  induction devs generalizing d with
  | nil => exact ⟨d, rfl, (List.append_nil _).symm, rfl, fun _ => rfl, fun hne => absurd rfl hne⟩
  | cons dev devs ih =>
    obtain ⟨msg, report, hsend, hrest⟩ := h
    have hdev : report.dev = dev ∧ 0 < msg.len := by
      obtain ⟨msg', report', hsend', hdev, hpos⟩ | ⟨msg', hfail⟩ := sendSwitch_cases d.skb dev
      · obtain ⟨rfl, rfl⟩ := SendResult.sent.inj (hsend.symm.trans hsend')
        exact ⟨hdev, hpos⟩
      · rw [hsend] at hfail
        cases hfail
    obtain ⟨d', heq, hreports, hidx, hnil, hcons⟩ :=
      ih (d := { idx := d.idx + 1, skb := msg, reports := d.reports ++ [report] }) hrest
    have hnot : ¬d.idx + 1 ≤ 0 := by omega
    unfold dumpLoop
    dsimp only
    rw [if_neg hnot, hsend]
    refine ⟨d', heq, ?_, ?_, fun hno => absurd hno (List.cons_ne_nil _ _), fun _ => ?_⟩
    · rw [hreports, List.map_append, List.map_singleton, hdev.1, List.append_assoc]
      rfl
    · rw [hidx, List.length_cons]
      dsimp only
      omega
    · by_cases hdevs : devs = []
      · rw [hnil hdevs]
        exact hdev.2
      · exact hcons hdevs

/-- After a failure the position counts a switch that was not reported. -/
theorem dumpLoop_of_not_sendsAll (h : ¬SendsAll d.skb devs) :
    ∃ d' new, dumpLoop 0 devs d = some d' ∧ d'.reports = d.reports ++ new ∧
      d.idx + new.length < d'.idx ∧ d'.idx ≤ d.idx + devs.length := by
  -- up to the first switch that does not fit each is reported; that one is counted and lost
  induction devs generalizing d with
  | nil => exact absurd trivial h
  | cons dev devs ih =>
    have hnot : ¬d.idx + 1 ≤ 0 := by omega
    unfold dumpLoop
    dsimp only
    rw [if_neg hnot]
    obtain ⟨msg, report, hsend, -, -⟩ | ⟨msg, hsend⟩ := sendSwitch_cases d.skb dev
    · have hrest : ¬SendsAll msg devs := fun hall => h ⟨msg, report, hsend, hall⟩
      obtain ⟨d', new, heq, hreports, hlt, hle⟩ :=
        ih (d := { idx := d.idx + 1, skb := msg, reports := d.reports ++ [report] }) hrest
      rw [hsend]
      dsimp only at hreports hlt hle
      refine ⟨d', report :: new, heq, ?_, ?_, ?_⟩
      · rw [hreports, List.append_assoc]
        rfl
      · rw [List.length_cons]
        omega
      · rw [List.length_cons]
        omega
    · rw [hsend]
      refine ⟨{ d with idx := d.idx + 1, skb := msg }, [], rfl, (List.append_nil _).symm, ?_, ?_⟩
      · exact Nat.lt_succ_self _
      · rw [List.length_cons]
        dsimp only
        omega

/-! ### All calls -/

/-- The calls from a position on report at most the switches behind it. -/
theorem length_dumpCalls_le {size : Nat → Nat} {fuel n args0 : Nat} {reports : List Report}
    (h : dumpCalls size devs fuel n args0 = some reports) :
    reports.length ≤ devs.length - args0 := by
  induction fuel generalizing n args0 reports with
  | zero => cases h
  | succ fuel ih =>
    obtain ⟨d, new, heq, hreports, hidx, hlen, hmove, hend⟩ := dumpLoop_spec args0 devs
      { idx := 0, skb := { size := size n, len := 0 }, reports := [] }
    dsimp only at hreports hidx hlen hmove hend
    rw [List.nil_append] at hreports
    unfold dumpCalls dumpSwitches at h
    rw [heq, Option.bind_eq_bind, Option.bind_some] at h
    split at h
    · obtain rfl := Option.some.inj h
      rw [hreports]
      omega
    · next hne =>
      -- a call that adds something starts before the last switch
      have hlt : args0 < 0 + devs.length := by
        by_contra hge
        apply hne
        rw [hend (Nat.le_of_not_lt hge)]
      have hnext := hmove hlt
      cases hrest : dumpCalls size devs fuel (n + 1) d.idx with
      | none =>
        rw [hrest] at h
        cases h
      | some rest =>
        rw [hrest] at h
        obtain rfl := Option.some.inj h
        have hle := ih hrest
        rw [List.length_append, hreports]
        omega

/-- Enough calls end the dump. -/
theorem exists_dumpCalls (size : Nat → Nat) (devs : List SwitchDev) {fuel : Nat} (n args0 : Nat)
    (h : devs.length - args0 < fuel) :
    ∃ reports, dumpCalls size devs fuel n args0 = some reports := by
  induction fuel generalizing n args0 with
  | zero => omega
  | succ fuel ih =>
    obtain ⟨d, new, heq, -, -, -, hmove, hend⟩ := dumpLoop_spec args0 devs
      { idx := 0, skb := { size := size n, len := 0 }, reports := [] }
    dsimp only at hmove hend
    unfold dumpCalls dumpSwitches
    rw [heq, Option.bind_eq_bind, Option.bind_some]
    split
    · exact ⟨_, rfl⟩
    · next hne =>
      -- the call sent something, so the device to go on with is a later one
      have hlt : args0 < 0 + devs.length := by
        by_contra hge
        apply hne
        rw [hend (Nat.le_of_not_lt hge)]
      have hnext := hmove hlt
      obtain ⟨rest, hrest⟩ := ih (n + 1) d.idx (by omega)
      rw [hrest]
      exact ⟨_, rfl⟩

/-- A dump ends, and reports every switch exactly once if and only if all of them fit into the first
    message. -/
theorem dump_complete_iff (size : Nat → Nat) (devs : List SwitchDev) :
    (∃ reports, dump size devs = some reports ∧ (reports.map Report.dev).Perm devs) ↔
      SendsAll { size := size 0, len := 0 } devs := by
  obtain ⟨reports, hdump⟩ := exists_dumpCalls size devs 0 0
    (show devs.length - 0 < devs.length + 1 by omega)
  have hall : (∃ reports, dump size devs = some reports ∧ (reports.map Report.dev).Perm devs) ↔
      (reports.map Report.dev).Perm devs := by
    constructor
    · rintro ⟨reports', hdump', hperm⟩
      obtain rfl := Option.some.inj (hdump.symm.trans hdump')
      exact hperm
    · exact fun hperm => ⟨reports, hdump, hperm⟩
  rw [hall]
  unfold dumpCalls dumpSwitches at hdump
  -- all fit the first message, or one is counted by the first call and never reported again
  by_cases hsends : SendsAll { size := size 0, len := 0 } devs
  · refine ⟨fun _ => hsends, fun _ => ?_⟩
    obtain ⟨d, heq, hreports, hidx, hnil, -⟩ := dumpLoop_of_sendsAll
      (d := { idx := 0, skb := { size := size 0, len := 0 }, reports := [] }) hsends
    rw [heq, Option.bind_eq_bind, Option.bind_some] at hdump
    have hdevs : d.reports.map Report.dev = devs := by simpa using hreports
    split at hdump
    · obtain rfl := Option.some.inj hdump
      rw [hdevs]
    · cases hrest : dumpCalls size devs devs.length (0 + 1) d.idx with
      | none =>
        rw [hrest] at hdump
        cases hdump
      | some rest =>
        -- the second call starts behind the last switch
        have hle := length_dumpCalls_le hrest
        rw [hrest] at hdump
        obtain rfl := Option.some.inj hdump
        have hnone : rest = [] := by
          apply List.eq_nil_of_length_eq_zero
          dsimp only at hidx
          omega
        rw [hnone, List.append_nil, hdevs]
  · refine ⟨fun hperm => ?_, fun hyes => absurd hyes hsends⟩
    exfalso
    have hlen := hperm.length_eq
    rw [List.length_map] at hlen
    -- the first switch that does not fit is counted, and the next call starts behind it
    obtain ⟨d, new, heq, hreports, hlt, hle⟩ := dumpLoop_of_not_sendsAll
      (d := { idx := 0, skb := { size := size 0, len := 0 }, reports := [] }) hsends
    dsimp only at hreports hlt hle
    rw [List.nil_append] at hreports
    rw [heq, Option.bind_eq_bind, Option.bind_some] at hdump
    split at hdump
    · obtain rfl := Option.some.inj hdump
      rw [hreports] at hlen
      omega
    · cases hrest : dumpCalls size devs devs.length (0 + 1) d.idx with
      | none =>
        rw [hrest] at hdump
        cases hdump
      | some rest =>
        have hrle := length_dumpCalls_le hrest
        rw [hrest] at hdump
        obtain rfl := Option.some.inj hdump
        rw [List.length_append, hreports] at hlen
        omega

/-! ### Sizes that are enough -/

/-- The room that an attribute with `n` bytes of data takes. -/
def nlaSize (n : Nat) : Nat := (4 + n + 3) / 4 * 4

def portSize (port : SwitchPortmap) : Nat :=
  nlaSize 0 + match port.s with
    | some s => nlaSize (s.length + 1) + nlaSize 4
    | none => 0

/-- The room that the whole report of a switch takes. -/
def reportSize (dev : SwitchDev) : Nat :=
  20 + nlaSize 4 + nlaSize (dev.devname.length + 1) + nlaSize (dev.aliasName.length + 1) +
    nlaSize (dev.name.length + 1) + nlaSize 4 + nlaSize 4 + nlaSize 4 + nlaSize 0 +
    (dev.portmap.map portSize).sum

/-- An attribute with room is put. -/
theorem nlaPut_of_le {n : Nat} (h : skb.len + nlaSize n ≤ skb.size) :
    nlaPut n skb = .ok { skb with len := skb.len + nlaSize n } := by
  unfold nlaPut SkBuff.put
  exact if_pos h

/-- Ports with room are all put. -/
private theorem putPorts_of_le {ports : List SwitchPortmap}
    (h : skb.len + (ports.map portSize).sum ≤ skb.size) :
    putPorts ports skb =
      .ok ({ skb with len := skb.len + (ports.map portSize).sum }, ports) := by
  -- each port takes a nest and, with a name, two attributes
  induction ports generalizing skb with
  | nil => rfl
  | cons port ports ih =>
    -- the first port fits
    have hport : ∃ n, portSize port = nlaSize 0 + n ∧
        putPort port { skb with len := skb.len + nlaSize 0 } =
          .ok { skb with len := skb.len + nlaSize 0 + n } := by
      rw [List.map_cons, List.sum_cons] at h
      unfold portSize at h ⊢
      unfold putPort
      cases hs : port.s with
      | none => exact ⟨0, rfl, rfl⟩
      | some s =>
        rw [hs] at h
        dsimp only at h
        refine ⟨nlaSize (s.length + 1) + nlaSize 4, rfl, ?_⟩
        dsimp only
        unfold nlaPutString nlaPutU32
        rw [nlaPut_of_le (by dsimp only; omega)]
        change nlaPut 4 _ = _
        rw [nlaPut_of_le (by dsimp only; omega)]
        simp only [Nat.add_assoc]
    obtain ⟨n, hsize, hput⟩ := hport
    rw [List.map_cons, List.sum_cons, hsize] at h ⊢
    unfold putPorts nlaNestStart
    rw [nlaPut_of_le (by omega)]
    dsimp only
    rw [hput]
    change (putPorts ports _ >>= _) = _
    rw [ih (by dsimp only; omega)]
    simp only [Nat.add_assoc]
    rfl

/-- A report with room is sent. -/
theorem sendSwitch_of_le {dev : SwitchDev} (h : skb.len + reportSize dev ≤ skb.size) :
    sendSwitch skb dev = .sent { skb with len := skb.len + reportSize dev }
      { dev := dev, ports := dev.portmap } := by
  unfold reportSize at h ⊢
  unfold sendSwitch genlmsgPut SkBuff.put
  rw [if_pos (by omega)]
  dsimp only
  have hput : putSwitch dev { skb with len := skb.len + 20 } =
      .ok ({ skb with len := skb.len + (20 + nlaSize 4 + nlaSize (dev.devname.length + 1) +
        nlaSize (dev.aliasName.length + 1) + nlaSize (dev.name.length + 1) + nlaSize 4 +
        nlaSize 4 + nlaSize 4 + nlaSize 0 + (dev.portmap.map portSize).sum) }, dev.portmap) := by
    unfold putSwitch nlaPutU32 nlaPutString nlaNestStart
    -- the eight attributes in front of the ports
    iterate 8
      rw [nlaPut_of_le (by dsimp only; omega)]
      dsimp only [bind, Except.bind]
    rw [putPorts_of_le (by dsimp only; omega)]
    simp only [Nat.add_assoc]
  rw [hput]
  rfl

/-- The switches fit into one message if the room for their reports is there. -/
theorem sendsAll_of_le (h : skb.len + (devs.map reportSize).sum ≤ skb.size) :
    SendsAll skb devs := by
  induction devs generalizing skb with
  | nil => trivial
  | cons dev devs ih =>
    rw [List.map_cons, List.sum_cons] at h
    refine ⟨_, _, sendSwitch_of_le (by omega), ih ?_⟩
    dsimp only
    omega

/-- A switch without ports. -/
def sampleDev (id : BitVec 32) : SwitchDev where
  id := id
  devname := [115, 119, 48]
  aliasName := [101, 116, 48]
  name := [97, 114, 56]
  vlans := 128#32
  cpuPort := 0#32
  portmap := []

/-- Each of two switches fits into a message, but both do not: the second is not reported. -/
theorem dump_two_not_complete :
    (∀ dev ∈ [sampleDev 1, sampleDev 2],
      ∃ msg report, sendSwitch { size := 120, len := 0 } dev = .sent msg report) ∧
    ¬∃ reports, dump (fun _ => 120) [sampleDev 1, sampleDev 2] = some reports ∧
      (reports.map Report.dev).Perm [sampleDev 1, sampleDev 2] := by
  constructor
  · intro dev hdev
    have hroom : 0 + reportSize dev ≤ 120 := by
      fin_cases hdev <;> decide
    exact ⟨_, _, sendSwitch_of_le hroom⟩
  · rintro ⟨reports, hdump, hperm⟩
    -- 120 bytes hold one report, and the second switch is lost
    have hone : (dump (fun _ => 120) [sampleDev 1, sampleDev 2]).map List.length = some 1 := by
      decide
    have hlen := hperm.length_eq
    rw [hdump, Option.map_some, Option.some_inj] at hone
    rw [List.length_map, hone] at hlen
    exact absurd hlen (by decide)

end HandsomeMod.Native.Swconfig.Dump
