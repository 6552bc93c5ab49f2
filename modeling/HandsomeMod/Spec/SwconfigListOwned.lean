import HandsomeMod.Native.Swconfig
import HandsomeMod.Spec.SwconfigDumpComplete

/-!
# The messages of a listing

Attributes arrive once and in order. A message that cannot take an attribute even though it is new
is freed twice: by `swconfig_send_multipart`, and by `swconfig_list_attrs`, to which it leaves the
pointer.
-/

namespace HandsomeMod.Native.Swconfig.Attrs

open ForStd Dump

variable {env : Env} {cb : Callback} {e : Entry} {done : List Entry}

/-! ### Sizes -/

def descriptionSize : Option (List UInt8) → Nat
  | none => 0
  | some description => nlaSize (description.length + 1)

/-- The room that the report of an attribute takes -/
def attrSize (op : SwitchAttr) : Nat :=
  20 + nlaSize 4 + nlaSize 4 + nlaSize (op.name.length + 1) + descriptionSize op.description

/-- An attribute that was put takes its room. -/
private theorem nlaPut_eq {skb skb' : SkBuff} {n : Nat} (h : nlaPut n skb = .ok skb') :
    skb' = { skb with len := skb.len + nlaSize n } ∧ skb.len + nlaSize n ≤ skb.size :=
  put_ok h

/-- The attributes that were put had room. -/
private theorem putAttr_ok {op : SwitchAttr} {skb skb' : SkBuff} (h : putAttr op skb = .ok skb') :
    skb.len + (attrSize op - 20) ≤ skb.size := by
  unfold putAttr at h
  obtain ⟨skb1, hid, h⟩ := bind_ok h
  obtain ⟨skb2, htype, h⟩ := bind_ok h
  obtain ⟨skb3, hname, h⟩ := bind_ok h
  obtain ⟨rfl, hle1⟩ := nlaPut_eq hid
  obtain ⟨rfl, hle2⟩ := nlaPut_eq htype
  obtain ⟨rfl, hle3⟩ := nlaPut_eq hname
  rw [attrSize]
  -- a description is put behind the other three attributes
  cases hdesc : op.description with
  | none =>
    dsimp only [descriptionSize] at *
    omega
  | some description =>
    rw [hdesc] at h
    obtain ⟨-, hle4⟩ := nlaPut_eq h
    dsimp only [descriptionSize] at *
    omega

/-- Attributes with room are put. -/
private theorem putAttr_of_le {op : SwitchAttr} {skb : SkBuff}
    (h : skb.len + (attrSize op - 20) ≤ skb.size) :
    putAttr op skb = .ok { skb with len := skb.len + (attrSize op - 20) } := by
  rw [attrSize] at h ⊢
  unfold putAttr nlaPutU32 nlaPutString
  -- the three attributes that every report has
  rw [nlaPut_of_le (by omega)]
  dsimp only [bind, Except.bind]
  rw [nlaPut_of_le (by dsimp only; omega)]
  dsimp only [bind, Except.bind]
  rw [nlaPut_of_le (by dsimp only; omega)]
  dsimp only [bind, Except.bind]
  cases hdesc : op.description with
  | none =>
    dsimp only [descriptionSize]
    congr 2
    omega
  | some description =>
    rw [hdesc] at h
    dsimp only [descriptionSize] at h ⊢
    rw [nlaPut_of_le (by dsimp only; omega)]
    congr 2
    dsimp only
    omega

/-- A report is put into a message exactly if there is room for all of it. -/
private theorem dumpAttr_ok_iff {skb : SkBuff} {op : SwitchAttr} :
    (∃ skb', dumpAttr skb op = .ok skb') ↔ skb.len + attrSize op ≤ skb.size := by
  have hsize : attrSize op = attrSize op - 20 + 20 := by
    rw [attrSize]
    omega
  rw [dumpAttr, genlmsgPut, SkBuff.put]
  -- a header that does not fit is not checked, the attributes behind it are
  by_cases hroom : skb.len + 20 ≤ skb.size
  · rw [if_pos hroom]
    dsimp only
    constructor
    · rintro ⟨skb', h⟩
      cases hput : putAttr op { skb with len := skb.len + 20 } with
      | error msg =>
        rw [hput] at h
        cases h
      | ok msg =>
        have hle := putAttr_ok hput
        dsimp only at hle
        omega
    · intro hle
      rw [putAttr_of_le (by dsimp only; omega)]
      exact ⟨_, rfl⟩
  · rw [if_neg hroom]
    dsimp only
    refine iff_of_false ?_ (by omega)
    rintro ⟨skb', h⟩
    cases hput : putAttr op skb with
    | error msg =>
      rw [hput] at h
      cases h
    | ok msg =>
      -- without the header there would be no room for the attributes
      have hle := putAttr_ok hput
      have hpos : 24 ≤ attrSize op - 20 := by
        rw [attrSize]
        unfold nlaSize
        omega
      omega

/-! ### Sending -/

/-- The state between two attributes, after those in `done` -/
structure Inv (cb : Callback) (done : List Entry) : Prop where
  idle : cb.msg = none → cb.released = List.range cb.allocated ∧ cb.sent = done
  pending : ∀ msg, cb.msg = some msg → cb.allocated = msg.id + 1 ∧
    cb.released = List.range msg.id ∧ cb.sent ++ msg.reports = done

/-- Every message has been released once, and what has arrived is right. -/
structure Settled (cb : Callback) (done : List Entry) : Prop where
  released : cb.released = List.range cb.allocated
  sent : cb.sent <+: done

/-- An attribute does not fit into the current message, nor into the new one that is allocated
    then. -/
def Refused (env : Env) (cb : Callback) (e : Entry) : Prop :=
  ∃ msg, (getMsg env cb).2 = some msg ∧ msg.skb.size < msg.skb.len + attrSize e.attr ∧
    env.reply msg.id = true ∧ env.alloc (msg.id + 1) = true ∧
    env.size (msg.id + 1) < attrSize e.attr

/-- A message that is there, or a new one, belongs to the callback. -/
private theorem getMsg_some {cb' : Callback} {msg : Msg} (h : Inv cb done)
    (hget : getMsg env cb = (cb', some msg)) : cb'.msg = some msg ∧ Inv cb' done := by
  rw [getMsg] at hget
  split at hget
  -- the message at hand is used again
  · rename_i m hm
    obtain ⟨rfl, hmsg⟩ := Prod.mk.inj hget
    rw [← hmsg]
    exact ⟨hm, h⟩
  · rename_i hm
    split at hget
    -- a new one is allocated, and all those before it are settled
    · obtain ⟨rfl, hmsg⟩ := Prod.mk.inj hget
      obtain ⟨hreleased, hsent⟩ := h.idle hm
      rw [← hmsg]
      refine ⟨rfl, (fun hnone => by cases hnone), fun msg' hmsg' => ?_⟩
      cases hmsg'
      exact ⟨rfl, hreleased, by rw [List.append_nil]; exact hsent⟩
    · cases (Prod.mk.inj hget).2

/-- Without a message all are settled. -/
private theorem getMsg_none {cb' : Callback} (h : Inv cb done) (hget : getMsg env cb = (cb', none))
    :
    cb'.msg = none ∧ Settled cb' done := by
  rw [getMsg] at hget
  split at hget
  · cases (Prod.mk.inj hget).2
  · rename_i hm
    split at hget
    · cases (Prod.mk.inj hget).2
    · obtain ⟨rfl, -⟩ := Prod.mk.inj hget
      obtain ⟨hreleased, hsent⟩ := h.idle hm
      exact ⟨hm, hreleased, by rw [hsent]⟩

/-- A report goes into the message that there is. -/
theorem Inv.fill {msg : Msg} (h : Inv cb done) (hmsg : cb.msg = some msg) (skb : SkBuff) (e : Entry) :
    Inv { cb with msg := some { msg with skb := skb, reports := msg.reports ++ [e] } }
      (done ++ [e]) := by
  obtain ⟨hallocated, hreleased, hsent⟩ := h.pending msg hmsg
  refine ⟨(fun hnone => by cases hnone), fun msg' hmsg' => ?_⟩
  cases hmsg'
  refine ⟨hallocated, hreleased, ?_⟩
  rw [← hsent, List.append_assoc]

/-- A message is released. -/
theorem Inv.release {msg : Msg} (h : Inv cb done) (hmsg : cb.msg = some msg) :
    cb.released ++ [msg.id] = List.range cb.allocated := by
  obtain ⟨hallocated, hreleased, -⟩ := h.pending msg hmsg
  rw [hallocated, hreleased, List.range_succ]

/-- What has arrived after a reply -/
theorem Inv.reply (env : Env) {msg : Msg} (h : Inv cb done) (hmsg : cb.msg = some msg) :
    (genlmsgReply env cb msg).1.released = List.range cb.allocated ∧
      (genlmsgReply env cb msg).1.allocated = cb.allocated ∧
      (genlmsgReply env cb msg).1.sent <+: done ∧
      (env.reply msg.id = true → (genlmsgReply env cb msg).1.sent = done) := by
  obtain ⟨-, -, hsent⟩ := h.pending msg hmsg
  refine ⟨h.release hmsg, rfl, ?_, ?_⟩
  · rw [genlmsgReply, ← hsent]
    dsimp only
    split
    · exact List.prefix_refl _
    · exact List.prefix_append _ _
  · intro hok
    rw [genlmsgReply, hok]
    exact hsent

/-- How `swconfig_send_multipart` ends for an attribute -/
inductive Outcome (env : Env) (cb : Callback) (e : Entry) (done : List Entry) :
    Callback × Bool → Prop where
  | sent (cb' : Callback) (h : ¬Refused env cb e) (hinv : Inv cb' (done ++ [e])) :
      Outcome env cb e done (cb', true)
  | failed (cb' : Callback) (h : ¬Refused env cb e) (hmsg : cb'.msg = none)
      (hsettled : Settled cb' done) : Outcome env cb e done (cb', false)
  /-- The message has been freed, but is still there. -/
  | refused (cb' : Callback) (msg : Msg) (h : Refused env cb e) (hmsg : cb'.msg = some msg)
      (hid : msg.id < cb'.allocated) (hsettled : Settled cb' done) :
      Outcome env cb e done (cb', false)

section Loop

variable {cb' : Callback} {msg : Msg} {n : Nat}

/-- An attribute with room is added to the message. -/
private theorem sendLoop_fits (hget : getMsg env cb = (cb', some msg))
    (hle : msg.skb.len + attrSize e.attr ≤ msg.skb.size) : ∃ skb, sendLoop env e n cb =
      ({ cb' with msg := some { msg with skb := skb, reports := msg.reports ++ [e] } }, true) := by
  obtain ⟨skb, hdump⟩ := dumpAttr_ok_iff.mpr hle
  refine ⟨skb, ?_⟩
  cases n with
  | zero => rw [sendLoop, hget]; simp only [hdump]
  | succ n => rw [sendLoop, hget]; simp only [hdump]

/-- An attribute without room is taken back. -/
private theorem dumpAttr_error {skb : SkBuff} {op : SwitchAttr}
    (hlt : skb.size < skb.len + attrSize op) :
    ∃ skb', dumpAttr skb op = .error skb' := by
  cases hdump : dumpAttr skb op with
  | ok skb' => exact absurd (dumpAttr_ok_iff.mp ⟨skb', hdump⟩) (Nat.not_le.mpr hlt)
  | error skb' => exact ⟨skb', rfl⟩

/-- Without a further try the message is freed. -/
private theorem sendLoop_last (hget : getMsg env cb = (cb', some msg))
    (hlt : msg.skb.size < msg.skb.len + attrSize e.attr) : ∃ skb, sendLoop env e 0 cb =
      ({ nlmsgFree cb' msg with msg := some { msg with skb := skb } }, false) := by
  obtain ⟨skb, hdump⟩ := dumpAttr_error hlt
  refine ⟨skb, ?_⟩
  rw [sendLoop, hget]
  simp only [hdump]

/-- A full message is sent and the attribute tried with a new one. -/
private theorem sendLoop_restart (hget : getMsg env cb = (cb', some msg))
    (hlt : msg.skb.size < msg.skb.len + attrSize e.attr) : ∃ skb, sendLoop env e (n + 1) cb =
      if env.reply msg.id then
        sendLoop env e n { (genlmsgReply env cb' { msg with skb := skb }).1 with msg := none }
      else ({ (genlmsgReply env cb' { msg with skb := skb }).1 with msg := none }, false) := by
  obtain ⟨skb, hdump⟩ := dumpAttr_error hlt
  refine ⟨msg.skb, ?_⟩
  rw [sendLoop, hget]
  simp only [hdump, genlmsgReply]
  cases env.reply msg.id <;> rfl

end Loop

/-- The second attempt, in a new message -/
private theorem sendLoop_second (cb : Callback) (hreleased : cb.released = List.range cb.allocated)
    (hsent : cb.sent = done)
    (hmsg : cb.msg = none) :
    (env.alloc cb.allocated = true ∧ env.size cb.allocated < attrSize e.attr ∧
      ∃ cb' msg, sendLoop env e 0 cb = (cb', false) ∧ cb'.msg = some msg ∧
        msg.id < cb'.allocated ∧ Settled cb' done) ∨
    (¬(env.alloc cb.allocated = true ∧ env.size cb.allocated < attrSize e.attr) ∧
      ∃ cb', (sendLoop env e 0 cb = (cb', true) ∧ Inv cb' (done ++ [e])) ∨
        sendLoop env e 0 cb = (cb', false) ∧ cb'.msg = none ∧ Settled cb' done) := by
  have hinv : Inv cb done :=
    ⟨fun _ => ⟨hreleased, hsent⟩, fun msg h => by rw [hmsg] at h; cases h⟩
  -- the callback has no message, so this one is allocated now, or the allocation fails
  cases hget : getMsg env cb with
  | mk cb1 m =>
    cases m with
    | none =>
      refine .inr ⟨?_, cb1, .inr ⟨sendLoop_none env hget, getMsg_none hinv hget⟩⟩
      rintro ⟨halloc, -⟩
      simp only [getMsg, hmsg, halloc, if_true] at hget
      cases (Prod.mk.inj hget).2
    | some msg =>
      obtain ⟨hcur, hinv1⟩ := getMsg_some hinv hget
      -- the message is new
      obtain ⟨halloc, hnew⟩ : env.alloc cb.allocated = true ∧
          msg.skb = { size := env.size cb.allocated, len := 0 } := by
        cases halloc : env.alloc cb.allocated with
        | false =>
          simp only [getMsg, hmsg, halloc, Bool.false_eq_true, if_false] at hget
          cases (Prod.mk.inj hget).2
        | true =>
          simp only [getMsg, hmsg, halloc, if_true] at hget
          obtain ⟨-, hm⟩ := Prod.mk.inj hget
          cases hm
          exact ⟨rfl, rfl⟩
      by_cases hlt : env.size cb.allocated < attrSize e.attr
      · obtain ⟨skb, hlast⟩ := sendLoop_last (e := e) hget (by rw [hnew]; dsimp only; omega)
        refine .inl ⟨halloc, hlt, _, _, hlast, rfl, ?_, ?_⟩
        · have hallocated := (hinv1.pending msg hcur).1
          show msg.id < cb1.allocated
          omega
        · refine ⟨hinv1.release hcur, ?_⟩
          rw [← (hinv1.pending msg hcur).2.2]
          exact List.prefix_append _ _
      · obtain ⟨skb, hfits⟩ := sendLoop_fits (e := e) (n := 0) hget (by rw [hnew]; dsimp only; omega)
        exact .inr ⟨fun h => hlt h.2, _, .inl ⟨hfits, hinv1.fill hcur skb e⟩⟩

/-- What becomes of an attribute. -/
private theorem sendMultipart_outcome (env : Env) (h : Inv cb done) (e : Entry) :
    Outcome env cb e done (sendMultipart env cb e) := by
  rw [sendMultipart]
  cases hget : getMsg env cb with
  | mk cb1 m =>
    cases m with
    | none =>
      obtain ⟨hmsg, hsettled⟩ := getMsg_none h hget
      rw [sendLoop_none env hget]
      refine .failed cb1 ?_ hmsg hsettled
      rintro ⟨msg, hcur, -⟩
      rw [hget] at hcur
      cases hcur
    | some msg =>
      obtain ⟨hcur, hinv⟩ := getMsg_some h hget
      have hrefused : Refused env cb e ↔ msg.skb.size < msg.skb.len + attrSize e.attr ∧
          env.reply msg.id = true ∧ env.alloc cb1.allocated = true ∧
          env.size cb1.allocated < attrSize e.attr := by
        rw [(hinv.pending msg hcur).1, Refused, hget]
        simp only [Option.some.injEq, exists_eq_left']
      -- the attribute fits the message at hand, or that one is sent and a new one is begun
      by_cases hle : msg.skb.len + attrSize e.attr ≤ msg.skb.size
      · obtain ⟨skb, hfits⟩ := sendLoop_fits (e := e) (n := 1) hget hle
        rw [hfits]
        exact .sent _ (fun hr => absurd (hrefused.mp hr).1 (Nat.not_lt.mpr hle))
          (hinv.fill hcur skb e)
      · obtain ⟨skb, hrestart⟩ := sendLoop_restart (e := e) (n := 0) hget (Nat.lt_of_not_le hle)
        rw [hrestart]
        obtain ⟨hreleased, hallocated, hprefix, hsent⟩ := hinv.reply env hcur
        by_cases hreply : env.reply msg.id = true
        · rw [if_pos hreply]
          -- the reply has freed the old message, so the attribute goes into the new one or is
          -- refused
          rcases sendLoop_second (e := e)
            { (genlmsgReply env cb1 { msg with skb := skb }).1 with msg := none }
            hreleased (hsent hreply) rfl with
            ⟨halloc, hlt, cb2, msg2, heq, hmsg2, hid, hsettled⟩ | ⟨hnot, cb2, hfine | hfine⟩
          · rw [heq]
            exact .refused cb2 msg2 (hrefused.mpr ⟨Nat.lt_of_not_le hle, hreply, halloc, hlt⟩)
              hmsg2 hid hsettled
          · rw [hfine.1]
            exact .sent cb2 (fun hr => hnot (hrefused.mp hr).2.2) hfine.2
          · rw [hfine.1]
            exact .failed cb2 (fun hr => hnot (hrefused.mp hr).2.2) hfine.2.1 hfine.2.2
        · rw [if_neg hreply]
          refine .failed _ (fun hr => hreply (hrefused.mp hr).2.1) rfl ⟨hreleased, hprefix⟩

/-! ### The listing -/

/-- No attribute is refused by two messages. -/
def Fits (env : Env) : List Entry → Callback → Prop
  | [], _ => True
  | e :: es, cb => ¬Refused env cb e ∧
      ((sendMultipart env cb e).2 = true → Fits env es (sendMultipart env cb e).1)

/-- Every message was released once, and the attributes have arrived once and in order; all of them
    if 0 is returned. -/
structure Good (es : List Entry) (r : Callback × Bool) : Prop where
  owned : r.1.released.Perm (List.range r.1.allocated)
  inOrder : r.1.sent <+: es
  complete : r.2 = true → r.1.sent = es

/-- What becomes of a list of attributes. -/
theorem listLoop_spec (env : Env) (h : Inv cb done) (es : List Entry) :
    (Fits env es cb ∧
      ((listLoop env es cb).2 = true ∧ Inv (listLoop env es cb).1 (done ++ es) ∨
        (listLoop env es cb).2 = false ∧ (listLoop env es cb).1.msg = none ∧
          Settled (listLoop env es cb).1 (done ++ es))) ∨
    (¬Fits env es cb ∧ (listLoop env es cb).2 = false ∧ ∃ msg,
      (listLoop env es cb).1.msg = some msg ∧ msg.id < (listLoop env es cb).1.allocated ∧
        Settled (listLoop env es cb).1 (done ++ es)) := by
  induction es generalizing cb done with
  | nil =>
    refine .inl ⟨trivial, .inl ⟨rfl, ?_⟩⟩
    rw [List.append_nil]
    exact h
  | cons e es ih =>
    have houtcome := sendMultipart_outcome env h e
    -- what was sent stays a prefix when more is to come
    have hmore {cb' : Callback} (hs : Settled cb' done) : Settled cb' (done ++ e :: es) :=
      ⟨hs.released, hs.sent.trans (List.prefix_append _ _)⟩
    rw [listLoop, Fits]
    generalize sendMultipart env cb e = r at houtcome
    cases houtcome with
    | sent cb' hr hinv =>
      simp only [hr, not_false_eq_true, true_and, forall_const]
      rw [List.append_cons]
      exact ih hinv
    | failed cb' hr hmsg hsettled =>
      refine .inl ⟨⟨hr, fun h => by cases h⟩, .inr ⟨rfl, hmsg, hmore hsettled⟩⟩
    | refused cb' msg hr hmsg hid hsettled =>
      exact .inr ⟨fun hfits => hfits.1 hr, rfl, msg, hmsg, hid, hmore hsettled⟩

/-- A listing treats its messages and attributes well exactly if no attribute is refused by a new
    message, after it did not fit into the one before. -/
theorem listAttrs_good_iff (env : Env) (attrs : List SwitchAttr)
    (defaults : List (SwitchAttr × Bool)) :
    Good (entries attrs defaults) (listAttrs env attrs defaults) ↔
      Fits env (entries attrs defaults) Callback.init := by
  have hinit : Inv Callback.init [] :=
    ⟨fun _ => ⟨rfl, rfl⟩, fun msg h => by cases h⟩
  have hspec := listLoop_spec env hinit (entries attrs defaults)
  rw [List.nil_append] at hspec
  rw [listAttrs]
  generalize entries attrs defaults = es at hspec
  generalize listLoop env es Callback.init = r at hspec
  obtain ⟨cb, ok⟩ := r
  dsimp only at hspec
  -- the loop ended well, or failed without a message, or with one that it had freed
  rcases hspec with ⟨hfits, ⟨rfl, hinv⟩ | ⟨rfl, hmsg, hsettled⟩⟩ |
    ⟨hfits, rfl, msg, hmsg, hid, hsettled⟩
  · -- the last message is sent
    refine iff_of_true ?_ hfits
    dsimp only
    cases hmsg : cb.msg with
    | none =>
      obtain ⟨hreleased, hsent⟩ := hinv.idle hmsg
      exact ⟨by rw [hreleased], by rw [hsent], fun _ => hsent⟩
    | some msg =>
      obtain ⟨hreleased, hallocated, hprefix, hsent⟩ := hinv.reply env hmsg
      exact ⟨by rw [hreleased, hallocated], hprefix, hsent⟩
  · refine iff_of_true ?_ hfits
    dsimp only
    rw [hmsg]
    exact ⟨by rw [hsettled.released], hsettled.sent, fun h => by cases h⟩
  · -- the message that was freed is freed again
    refine iff_of_false ?_ hfits
    dsimp only
    rw [hmsg]
    intro hgood
    have hlen := hgood.owned.length_eq
    simp only [nlmsgFree, hsettled.released, List.length_append, List.length_range,
      List.length_singleton] at hlen
    omega

/-- Attributes for which a new message has room -/
theorem fits_of_le {es : List Entry} (hroom : ∀ e ∈ es, ∀ n, attrSize e.attr ≤ env.size n) :
    Fits env es cb := by
  induction es generalizing cb with
  | nil => trivial
  | cons e es ih =>
    obtain ⟨he, hes⟩ := List.forall_mem_cons.mp hroom
    refine ⟨?_, fun _ => ih hes⟩
    rintro ⟨msg, -, -, -, -, hlt⟩
    exact absurd (he (msg.id + 1)) (Nat.not_le.mpr hlt)

/-- Messages of a page from which the overhead is taken -/
def pageEnv : Env := { alloc := fun _ => true, size := fun _ => 3776, reply := fun _ => true }

/-- An attribute with a description of 4000 bytes -/
def longAttr : SwitchAttr :=
  { disabled := false, type := 1, name := [0x61], description := some (List.replicate 4000 0x62) }

/-- The second message is freed twice. -/
theorem longAttr_freed_twice :
    (listAttrs pageEnv [longAttr] []).1.released = [0, 1, 1] ∧
      ¬Good (entries [longAttr] []) (listAttrs pageEnv [longAttr] []) := by
  refine ⟨by decide +kernel, ?_⟩
  intro hgood
  have hlen := hgood.owned.length_eq
  revert hlen
  decide +kernel

end HandsomeMod.Native.Swconfig.Attrs
