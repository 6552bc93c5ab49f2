import HandsomeMod.Spec.RbHardconfigRle

/-!
# Where the tags of a hard config are

`routerboot_tag_find` comes to the nodes of a list one after the other, `Visited`. It does not look at
where a payload ends: `TagsFit` is when all of the list is in the buffer, and `Reader.Fits` is what a
reader of a payload needs besides.
-/

namespace HandsomeMod.Native.RbHardconfig

open ForStd

variable {e : Endian} {buf : List UInt8} {buflen : Nat} {tagId : UInt16} {p : Nat}

/-- A word is read outside exactly if it ends behind the buffer. -/
private theorem loadWord_eq_none_iff : loadWord e buf p = none ↔ buf.length < p + 4 := by
  rw [loadWord]
  split
  · next h => exact ⟨fun hnone => (by cases hnone), fun hlt => by omega⟩
  · next h => exact ⟨fun _ => by omega, fun _ => rfl⟩

/-- A word that was read is in the buffer. -/
private theorem lt_of_loadWord {node : Nat} (h : loadWord e buf p = some node) : p + 4 ≤ buf.length
    := by
  by_contra hlt
  rw [loadWord_eq_none_iff.mpr (by omega)] at h
  cases h

/-! ### The nodes of a list -/

/-- The positions of the nodes that the search comes to. -/
inductive Visited (e : Endian) (buf : List UInt8) (buflen : Nat) (tagId : UInt16) : Nat → Prop where
  | start (hid : tagId ≠ 0) : Visited e buf buflen tagId 0
  | next {p node : Nat} (h : Visited e buf buflen tagId p) (hlt : p < buflen)
      (hword : loadWord e buf p = some node) (hnode : node ≠ 0) (hother : tagId ≠ nodeId node) :
      Visited e buf buflen tagId (p + 4 + alignLen (nodeLen node))

/-- The walk goes on behind other tags. -/
theorem Visited.tagId_ne (h : Visited e buf buflen tagId p) : tagId ≠ 0 := by
  induction h with
  | start hid => exact hid
  | next _ _ _ _ _ ih => exact ih

/-- A turn that goes on passes a node of another tag. -/
private theorem tagTurn_eq_inr_iff {p' : Nat} : tagTurn e buf buflen tagId p = .inr p' ↔
    ∃ node, p < buflen ∧ loadWord e buf p = some node ∧ node ≠ 0 ∧ tagId ≠ nodeId node ∧
      p' = p + 4 + alignLen (nodeLen node) := by
  rw [tagTurn]
  by_cases hlt : p < buflen
  · rw [if_pos hlt]
    cases hword : loadWord e buf p with
    | none => simp
    | some node =>
      by_cases hnode : node = 0
      · simp [hnode]
      -- the tag that is searched for ends the walk
      · by_cases hid : tagId = nodeId node
        · simp only [if_neg hnode, if_pos hid]
          split <;> simp [hid]
        · simp [hnode, hid, hlt, eq_comm]
  · simp [hlt]

/-- A turn that reads outside of the buffer. -/
private theorem tagTurn_eq_none_iff :
    tagTurn e buf buflen tagId p = .inl none ↔ p < buflen ∧ loadWord e buf p = none := by
  rw [tagTurn]
  by_cases hlt : p < buflen
  · rw [if_pos hlt]
    cases hword : loadWord e buf p with
    | none => simp [hlt]
    | some node =>
      simp only
      split
      · simp
      · split
        · split <;> simp
        · simp
  · simp [hlt]

/-- A turn that finds the tag. -/
theorem tagTurn_eq_ok_iff {ofs len : UInt16} :
    tagTurn e buf buflen tagId p = .inl (some (.ok (ofs, len))) ↔
      ∃ node, p + 4 < buflen ∧ loadWord e buf p = some node ∧ node ≠ 0 ∧ tagId = nodeId node ∧
        ofs = UInt16.ofNat (p + 4) ∧ len = nodeLen node := by
  rw [tagTurn]
  by_cases hlt : p < buflen
  · rw [if_pos hlt]
    cases hword : loadWord e buf p with
    | none => simp
    | some node =>
      by_cases hnode : node = 0
      · simp [hnode]
      · by_cases hid : tagId = nodeId node
        · simp only [if_neg hnode, if_pos hid]
          -- a payload at the end of the buffer is none
          split
          · next hge => simp [not_lt.mpr hge]
          · next hge => simp [not_le.mp hge, hnode, hid, eq_comm]
        · simp [hnode, hid]
  · simp [hlt]
    omega

/-- The search comes to the nodes of the list. -/
private theorem reaches_iff (hid : tagId ≠ 0) :
    Loop.Reaches (tagTurn e buf buflen tagId) 0 p ↔ Visited e buf buflen tagId p := by
  constructor
  · intro h
    induction h with
    | refl => exact .start hid
    | tail _ hlast ih =>
      obtain ⟨node, hlt, hword, hnode, hother, rfl⟩ := tagTurn_eq_inr_iff.mp hlast
      exact ih.next hlt hword hnode hother
  · intro h
    induction h with
    | start => exact .refl
    -- a visited node of another tag is stepped over
    | next _ hlt hword hnode hother ih =>
      exact ih.tail (tagTurn_eq_inr_iff.mpr ⟨_, hlt, hword, hnode, hother, rfl⟩)

/-- The search ends within the bytes of the buffer. -/
private theorem exists_run_tagTurn (e : Endian) (buf : List UInt8) (buflen : Nat) (tagId : UInt16)
    {fuel : Nat} (hfuel : buf.length < fuel) :
    ∃ r, Loop.run (tagTurn e buf buflen tagId) fuel 0 = some r := by
  apply Loop.exists_run_of_advances id buf.length
  · intro p p' hturn
    obtain ⟨node, -, hword, -, -, rfl⟩ := tagTurn_eq_inr_iff.mp hturn
    have hle := lt_of_loadWord hword
    simp only [id]
    omega
  · simp only [id]
    omega
  · omega

/-- What a search gives is what a turn gives at a node. -/
theorem run_tagTurn_iff (hid : tagId ≠ 0) {fuel : Nat} (hfuel : buf.length < fuel)
    {r : Option (Except Int (UInt16 × UInt16))} :
    routerbootTagFind e buf buflen tagId fuel = some r ↔
      ∃ p, Visited e buf buflen tagId p ∧ tagTurn e buf buflen tagId p = .inl r := by
  rw [routerbootTagFind_of_ne hid,
    Loop.run_eq_some_iff (exists_run_tagTurn e buf buflen tagId hfuel)]
  simp only [reaches_iff hid]

/-! ### The lookup -/

/-- What a lookup in a buffer is to do. -/
structure LookupSafe (e : Endian) (buf : List UInt8) (tagId : UInt16) : Prop where
  /-- The search ends, without an access outside of the buffer. -/
  inside : ∃ r, ∀ fuel, buf.length < fuel →
    routerbootTagFind e buf buf.length tagId fuel = some (some r)
  /-- A payload is skipped up to the next word. -/
  skips : ∀ p p' node, tagId ≠ 0 → Loop.Reaches (tagTurn e buf buf.length tagId) 0 p →
    tagTurn e buf buf.length tagId p = .inr p' → loadWord e buf p = some node →
    p' = p + 4 + ((nodeLen node).toNat + 3) / 4 * 4
  /-- A payload that is reported is in the buffer. -/
  payload : ∀ fuel ofs len, buf.length < fuel →
    routerbootTagFind e buf buf.length tagId fuel = some (some (.ok (ofs, len))) →
    ofs.toNat + len.toNat ≤ buf.length

/-- The nodes up to the one of the tag are whole, no length is rounded up to 64 KiB, and the payload
of the tag is in the buffer. -/
def TagsFit (e : Endian) (buf : List UInt8) (tagId : UInt16) : Prop :=
  ∀ p, Visited e buf buf.length tagId p → p < buf.length → ∃ node, loadWord e buf p = some node ∧
    (node ≠ 0 → tagId ≠ nodeId node → (nodeLen node).toNat ≤ 0xfffc) ∧
    (node ≠ 0 → tagId = nodeId node → p + 4 < buf.length →
      (UInt16.ofNat (p + 4)).toNat + (nodeLen node).toNat ≤ buf.length)

/-- A length is rounded up in 16 bits. -/
private theorem alignLen_eq_iff (len : UInt16) :
    alignLen len = (len.toNat + 3) / 4 * 4 ↔ len.toNat ≤ 0xfffc := by
  have hlt := len.toNat_lt
  rw [alignLen]
  omega

/-- A safe lookup visits tags inside of the buffer. -/
private theorem tagsFit_of_lookupSafe (h : LookupSafe e buf tagId) : TagsFit e buf tagId := by
  intro p hvisited hlt
  have hid := hvisited.tagId_ne
  have hreach := (reaches_iff hid).mpr hvisited
  cases hword : loadWord e buf p with
  | none =>
    -- The node would be read outside of the buffer.
    obtain ⟨r, hr⟩ := h.inside
    have hrun := hr _ (Nat.lt_succ_self _)
    have hnone := (run_tagTurn_iff hid (Nat.lt_succ_self _)).mpr
      ⟨p, hvisited, tagTurn_eq_none_iff.mpr ⟨hlt, hword⟩⟩
    rw [hnone] at hrun
    cases hrun
  | some node =>
    refine ⟨node, rfl, ?_, ?_⟩
    · intro hnode hother
      have hturn := tagTurn_eq_inr_iff.mpr ⟨node, hlt, hword, hnode, hother, rfl⟩
      have hskip := h.skips p _ node hid hreach hturn hword
      exact (alignLen_eq_iff _).mp (Nat.add_left_cancel hskip)
    · intro hnode hsame hin
      have hturn := tagTurn_eq_ok_iff.mpr ⟨node, hin, hword, hnode, hsame, rfl, rfl⟩
      exact h.payload _ _ _ (Nat.lt_succ_self _)
        ((run_tagTurn_iff hid (Nat.lt_succ_self _)).mpr ⟨p, hvisited, hturn⟩)

/-- A lookup that visits tags inside of the buffer is safe. -/
private theorem lookupSafe_of_tagsFit (h : TagsFit e buf tagId) : LookupSafe e buf tagId where
  inside := by
    by_cases hid : tagId = 0
    · exact ⟨_, fun fuel _ => if_pos hid⟩
    -- the walk ends, and where it ends is a place it visits
    · obtain ⟨r, hr⟩ := exists_run_tagTurn e buf buf.length tagId (Nat.lt_succ_self _)
      obtain ⟨p, hreach, hturn⟩ := Loop.reaches_of_run hr
      have hvisited := (reaches_iff hid).mp hreach
      cases r with
      | none =>
        obtain ⟨hlt, hnone⟩ := tagTurn_eq_none_iff.mp hturn
        obtain ⟨node, hword, -⟩ := h p hvisited hlt
        rw [hnone] at hword
        cases hword
      | some r => exact ⟨r, fun fuel hfuel => (run_tagTurn_iff hid hfuel).mpr ⟨p, hvisited, hturn⟩⟩
  -- the length of a tag that is passed is a multiple of four, so it is not rounded
  skips := by
    intro p p' node hid hreach hturn hword
    obtain ⟨node', hlt, hword', hnode, hother, rfl⟩ := tagTurn_eq_inr_iff.mp hturn
    cases hword'.symm.trans hword
    obtain ⟨node', hword', hlen, -⟩ := h p ((reaches_iff hid).mp hreach) hlt
    cases hword'.symm.trans hword
    rw [(alignLen_eq_iff _).mpr (hlen hnode hother)]
  payload := by
    intro fuel ofs len hfuel hrun
    by_cases hid : tagId = 0
    · rw [hid, routerbootTagFind_zero] at hrun
      cases hrun
    · obtain ⟨p, hvisited, hturn⟩ := (run_tagTurn_iff hid hfuel).mp hrun
      obtain ⟨node, hin, hword, hnode, hsame, rfl, rfl⟩ := tagTurn_eq_ok_iff.mp hturn
      obtain ⟨node', hword', -, hpayload⟩ := h p hvisited (by omega)
      cases hword'.symm.trans hword
      exact hpayload hnode hsame hin

/-- A lookup is safe just if the list of tags is in the buffer. -/
theorem lookupSafe_iff : LookupSafe e buf tagId ↔ TagsFit e buf tagId :=
  ⟨tagsFit_of_lookupSafe, lookupSafe_of_tagsFit⟩

/-! ### Attributes -/

variable {w : Nat} {env : HcEnv w} {hcBuf : List UInt8} {ofs len : UInt16}

/-- A text that is printed has an end. -/
def Tshow.Fits (hcBuf : List UInt8) (ofs : Nat) : Tshow → Prop
  | .string => 0 ∈ hcBuf.drop ofs
  | _ => True

/-- Words that are in a buffer can be read. -/
private theorem mapM_loadWord {ofs : Nat} {l : List Nat} (h : ∀ i ∈ l, ofs + 4 * i + 4 ≤ buf.length)
    :
    (l.mapM fun i => loadWord e buf (ofs + 4 * i)) ≠ none := by
  induction l with
  | nil => simp
  | cons i l ih =>
    obtain ⟨hi, hl⟩ := List.forall_mem_cons.mp h
    obtain ⟨data, hdata⟩ := Option.ne_none_iff_exists'.mp (ih hl)
    rw [List.mapM_cons, hdata, loadWord, if_pos hi]
    simp

/-- Words of a tag inside of the buffer are shown. -/
private theorem tagShowU32s_ne_none {ofs : Nat} (h : ofs + len.toNat ≤ hcBuf.length) :
    tagShowU32s e hcBuf ofs len ≠ none := by
  rw [tagShowU32s]
  split
  · simp
  · rw [ne_eq, Option.map_eq_none_iff]
    apply mapM_loadWord
    intro i hi
    have hlt := List.mem_range.mp hi
    omega

/-- An address inside of the buffer is shown. -/
private theorem tagShowMac_ne_none {ofs : Nat} (h : ofs + len.toNat ≤ hcBuf.length) :
    tagShowMac hcBuf ofs len ≠ none := by
  rw [tagShowMac]
  split
  · simp
  · next hlen =>
    have height : len.toNat = 8 := by rw [not_not.mp hlen]; rfl
    rw [if_pos (by omega)]
    simp

/-- Options inside of the buffer are shown. -/
private theorem tagShowHwoptions_ne_none {ofs : Nat} (h : ofs + len.toNat ≤ hcBuf.length) :
    tagShowHwoptions e hcBuf ofs len ≠ none := by
  rw [tagShowHwoptions]
  split
  · simp
  · next hlen =>
    have hfour : len.toNat = 4 := by rw [not_not.mp hlen]; rfl
    rw [ne_eq, Option.map_eq_none_iff, loadWord_eq_none_iff]
    omega

/-- An attribute whose payload is in the buffer is read safely, unless it is a text that has no
end. -/
private theorem hcAttrShow_ne_none_iff (tshow : Tshow) (h : ofs.toNat + len.toNat ≤ hcBuf.length) :
    hcAttrShow e hcBuf tshow ofs len ≠ none ↔ (len ≠ 0 → tshow.Fits hcBuf ofs.toNat) := by
  unfold hcAttrShow
  by_cases hlen : len = 0
  · simp [hlen]
  · rw [if_neg hlen]
    cases tshow with
    | string =>
      rw [ne_eq, Option.map_eq_none_iff, tagShowString, Tshow.Fits]
      -- a string is read up to its zero
      by_cases hend : 0 ∈ hcBuf.drop ofs.toNat
      · simp [hend]
      · simp [hend, hlen]
    | u32s => exact iff_of_true (tagShowU32s_ne_none h) fun _ => trivial
    | mac => exact iff_of_true (tagShowMac_ne_none h) fun _ => trivial
    | hwoptions => exact iff_of_true (tagShowHwoptions_ne_none h) fun _ => trivial

/-! ### Tags that are unpacked -/

/-- As far as the search comes, the nodes are whole, and a payload that is decoded is in the
buffer. -/
def PayloadFits (e : Endian) (buf : List UInt8) (buflen : Nat) (tagId : UInt16) : Prop :=
  ∀ p, Visited e buf buflen tagId p → p < buflen → ∃ node, loadWord e buf p = some node ∧
    (node ≠ 0 → tagId = nodeId node → p + 4 < buflen → (nodeLen node).toNat ≤ buflen →
      (UInt16.ofNat (p + 4)).toNat + (nodeLen node).toNat ≤ buf.length)

/-- The search for a tag ends where its walk ends. -/
theorem tagFind_iff (hid : tagId ≠ 0) {r : Option (Except Int (UInt16 × UInt16))} :
    env.tagFind buf buflen tagId = r ↔
      ∃ p, Visited env.endian buf buflen tagId p ∧ tagTurn env.endian buf buflen tagId p = .inl r := by
  rw [← run_tagTurn_iff hid (Nat.lt_succ_self buf.length), HcEnv.tagFind]
  obtain ⟨r', hr'⟩ := exists_run_tagTurn env.endian buf buflen tagId (Nat.lt_succ_self _)
  have hrun : routerbootTagFind env.endian buf buflen tagId (buf.length + 1) = some r' := by
    rw [routerbootTagFind_of_ne hid]
    exact hr'
  rw [hrun, Option.join_some, Option.some.injEq]

variable {decode : List UInt8 → UInt16 → Option (Except Int (List UInt8))}

/-- A search outside of the buffer stops the unpacking. -/
private theorem unpackTag_of_none (h : env.tagFind buf buflen tagId = none) :
    env.unpackTag decode tagId buf buflen = none := by
  rw [HcEnv.unpackTag, h]

/-- A tag that was found is decoded. -/
private theorem unpackTag_of_ok (h : env.tagFind buf buflen tagId = some (.ok (ofs, len))) :
    env.unpackTag decode tagId buf buflen = if len.toNat > buflen then some (.error (-einval))
      else (payload buf ofs len).bind fun input => decode input len := by
  rw [HcEnv.unpackTag, h]

/-- A tag is unpacked safely just if its list is in the buffer. -/
private theorem unpackTag_ne_none_iff (hdecode : ∀ input len, decode input len ≠ none) :
    env.unpackTag decode tagId buf buflen ≠ none ↔ PayloadFits env.endian buf buflen tagId := by
  by_cases hid : tagId = 0
  -- the id 0 is refused before the walk
  · have hfind : env.tagFind buf buflen tagId = some (.error (-einval)) := by
      rw [HcEnv.tagFind, hid, routerbootTagFind_zero, Option.join_some]
    refine iff_of_true ?_ fun p hvisited => absurd hid hvisited.tagId_ne
    rw [HcEnv.unpackTag, hfind]
    simp
  · constructor
    -- a place that is visited decides the search, as header out of bounds or as the tag found
    · intro hsafe p hvisited hlt
      cases hword : loadWord env.endian buf p with
      | none =>
        have hfind := (tagFind_iff hid).mpr ⟨p, hvisited, tagTurn_eq_none_iff.mpr ⟨hlt, hword⟩⟩
        exact absurd (unpackTag_of_none hfind) hsafe
      | some node =>
        refine ⟨node, rfl, fun hnode hsame hin hlen => ?_⟩
        have hfind := (tagFind_iff hid).mpr
          ⟨p, hvisited, tagTurn_eq_ok_iff.mpr ⟨node, hin, hword, hnode, hsame, rfl, rfl⟩⟩
        rw [unpackTag_of_ok hfind, if_neg (not_lt.mpr hlen)] at hsafe
        by_contra hout
        rw [payload, if_neg hout] at hsafe
        exact hsafe rfl
    -- the search has one result, and what it found is inside the buffer
    · intro hfits
      have hfind : env.tagFind buf buflen tagId = env.tagFind buf buflen tagId := rfl
      obtain ⟨p, hvisited, hturn⟩ := (tagFind_iff hid).mp hfind
      cases hfind : env.tagFind buf buflen tagId with
      | none =>
        rw [hfind] at hturn
        obtain ⟨hlt, hnone⟩ := tagTurn_eq_none_iff.mp hturn
        obtain ⟨node, hword, -⟩ := hfits p hvisited hlt
        rw [hnone] at hword
        cases hword
      | some r =>
        cases r with
        | error ret =>
          rw [HcEnv.unpackTag, hfind]
          simp
        | ok found =>
          obtain ⟨ofs, len⟩ := found
          rw [hfind] at hturn
          obtain ⟨node, hin, hword, hnode, hsame, rfl, rfl⟩ := tagTurn_eq_ok_iff.mp hturn
          obtain ⟨node', hword', hpayload⟩ := hfits p hvisited (by omega)
          cases hword'.symm.trans hword
          rw [unpackTag_of_ok hfind]
          split
          · simp
          · next hlen =>
            rw [payload, if_pos (hpayload hnode hsame hin (not_lt.mp hlen)), Option.bind_some]
            exact hdecode _ _

/-- The decoder does not leave the input that it is given. -/
private theorem rleDecode_ne_none (env : HcEnv w) (input : List UInt8) (len : UInt16) :
    env.rleDecode input len ≠ none := by
  obtain ⟨r, hr⟩ := rleDecode_inside (env.rleArgs input len) (Nat.lt_succ_self _)
  rw [HcEnv.rleDecode]
  simp only [hr, Option.join_some, Option.map_some, ne_eq, reduceCtorEq, not_false_eq_true]

/-! ### The blob -/

/-- The magic is at a word of the blob, and at none in front of it. -/
structure FirstMagic (e : Endian) (temp : List UInt8) (k : Nat) : Prop where
  aligned : 4 ∣ k
  magic : loadWord e temp k = some rbMagicErd
  first : ∀ j < k, 4 ∣ j → loadWord e temp j ≠ some rbMagicErd

/-- The search for the magic ends at a word of the blob. -/
def NeedleFits (e : Endian) (temp : List UInt8) : Prop :=
  4 ∣ temp.length ∧ temp ≠ [] ∨ ∃ k, 4 ∣ k ∧ loadWord e temp k = some rbMagicErd

/-- The search goes on behind a word that is not the magic. -/
private theorem needleTurn_eq_inr_iff {temp : List UInt8} {k k' : Nat} :
    needleTurn e temp k = .inr k' ↔
    (∃ word, loadWord e temp k = some word ∧ word ≠ rbMagicErd) ∧ k + 4 < temp.length ∧ k' = k + 4 := by
  rw [needleTurn]
  cases hword : loadWord e temp k with
  | none => simp
  | some word =>
    by_cases hmagic : word = rbMagicErd
    · simp [hmagic]
    · by_cases hend : k + 4 ≥ temp.length
      · simp [hmagic, hend]
      · simp [hmagic, hend, eq_comm]
        omega

/-- The scan for the magic reads outside exactly at the end of the buffer. -/
private theorem needleTurn_eq_none_iff {temp : List UInt8} {k : Nat} :
    needleTurn e temp k = .inl none ↔ loadWord e temp k = none := by
  rw [needleTurn]
  cases hword : loadWord e temp k with
  | none => simp
  | some word =>
    simp only
    split
    · simp
    · split <;> simp

/-- The scan ends at the magic. -/
private theorem needleTurn_eq_ok_iff {temp rest : List UInt8} {k : Nat} :
    needleTurn e temp k = .inl (some (.ok rest)) ↔
      loadWord e temp k = some rbMagicErd ∧ rest = temp.drop (k + 4) := by
  rw [needleTurn]
  cases hword : loadWord e temp k with
  | none => simp
  | some word =>
    by_cases hmagic : word = rbMagicErd
    · simp [hmagic, eq_comm]
    · simp only [if_neg hmagic]
      split <;> simp [hmagic]

/-- The words that the search for the magic comes to. -/
private theorem reaches_needleTurn_iff {temp : List UInt8} {k : Nat} :
    Loop.Reaches (needleTurn e temp) 0 k ↔ 4 ∣ k ∧ (k = 0 ∨ k < temp.length) ∧
      ∀ j < k, 4 ∣ j → ∃ word, loadWord e temp j = some word ∧ word ≠ rbMagicErd := by
  constructor
  · intro h
    induction h with
    | refl => exact ⟨Nat.dvd_zero 4, .inl rfl, fun j hj => absurd hj (Nat.not_lt_zero j)⟩
    | @tail m _ _ hlast ih =>
      obtain ⟨hword, hlt, rfl⟩ := needleTurn_eq_inr_iff.mp hlast
      obtain ⟨hdvd, -, hbefore⟩ := ih
      refine ⟨Nat.dvd_add hdvd (Nat.dvd_refl 4), .inr hlt, fun j hj hj4 => ?_⟩
      -- the words before `m` were passed earlier, the one at `m` in this step
      by_cases hlast' : j < m
      · exact hbefore j hlast' hj4
      · have heq : j = m := by omega
        rw [heq]
        exact hword
  · rintro ⟨⟨n, rfl⟩, hlt, hbefore⟩
    induction n with
    | zero => exact .refl
    | succ n ih =>
      -- a word is passed if it is loaded and is not the magic
      have hreach := ih (by omega) fun j hj hj4 => hbefore j (by omega) hj4
      have hword := hbefore (4 * n) (by omega) (Nat.dvd_mul_right 4 n)
      exact hreach.tail (needleTurn_eq_inr_iff.mpr ⟨hword, by omega, rfl⟩)

/-- The search for the magic ends where its scan ends. -/
private theorem findNeedle_iff {temp : List UInt8} {r : Option (Except Int (List UInt8))} :
    env.findNeedle temp = r ↔
      ∃ k, Loop.Reaches (needleTurn env.endian temp) 0 k ∧ needleTurn env.endian temp k = .inl r := by
  -- each turn moves on, so the search ends
  have hend : ∃ r, Loop.run (needleTurn env.endian temp) (temp.length + 1) 0 = some r := by
    apply Loop.exists_run_of_advances id temp.length
    · intro k k' hturn
      obtain ⟨-, hlt, rfl⟩ := needleTurn_eq_inr_iff.mp hturn
      simp only [id]
      omega
    · simp only [id]
      omega
    · omega
  rw [← Loop.run_eq_some_iff hend, HcEnv.findNeedle]
  obtain ⟨r', hr'⟩ := hend
  rw [hr', Option.join_some, Option.some.injEq]

/-- The search finds the first magic. -/
private theorem findNeedle_ok_iff {temp rest : List UInt8} :
    env.findNeedle temp = some (.ok rest) ↔
      ∃ k, FirstMagic env.endian temp k ∧ rest = temp.drop (k + 4) := by
  rw [findNeedle_iff]
  constructor
  · rintro ⟨k, hreach, hturn⟩
    obtain ⟨hmagic, hrest⟩ := needleTurn_eq_ok_iff.mp hturn
    obtain ⟨hdvd, -, hbefore⟩ := reaches_needleTurn_iff.mp hreach
    refine ⟨k, ⟨hdvd, hmagic, fun j hj hj4 heq => ?_⟩, hrest⟩
    obtain ⟨word, hword, hne⟩ := hbefore j hj hj4
    exact hne (Option.some.inj (hword.symm.trans heq))
  · rintro ⟨k, hfirst, hrest⟩
    have hin := lt_of_loadWord hfirst.magic
    refine ⟨k, reaches_needleTurn_iff.mpr ⟨hfirst.aligned, .inr (by omega), fun j hj hj4 => ?_⟩,
      needleTurn_eq_ok_iff.mpr ⟨hfirst.magic, hrest⟩⟩
    cases hword : loadWord env.endian temp j with
    -- a word in front of the magic lies inside the buffer
    | none =>
      have hout := loadWord_eq_none_iff.mp hword
      omega
    | some word => exact ⟨word, rfl, fun heq => hfirst.first j hj hj4 (by rw [hword, heq])⟩

/-- The search stays inside exactly if there is a magic, or the scan ends. -/
private theorem findNeedle_ne_none_iff (env : HcEnv w) {temp : List UInt8} :
    env.findNeedle temp ≠ none ↔ NeedleFits env.endian temp := by
  have hnone : env.findNeedle temp = none ↔ ∃ k, Loop.Reaches (needleTurn env.endian temp) 0 k ∧
      temp.length < k + 4 := by
    rw [findNeedle_iff]
    simp only [needleTurn_eq_none_iff, loadWord_eq_none_iff]
  rw [ne_eq, hnone, NeedleFits]
  constructor
  · intro hsafe
    by_contra hnot
    obtain ⟨hlen, hmagic⟩ := not_or.mp hnot
    -- Without a magic the search comes to the last word, which is not whole.
    have hall : ∀ n, 4 * n ≤ temp.length → (n = 0 ∨ 4 * n < temp.length) →
        Loop.Reaches (needleTurn env.endian temp) 0 (4 * n) := by
      intro n hn hlt
      refine reaches_needleTurn_iff.mpr ⟨Nat.dvd_mul_right 4 n, by omega, fun j hj hj4 => ?_⟩
      cases hword : loadWord env.endian temp j with
      | none =>
        have hout := loadWord_eq_none_iff.mp hword
        omega
      | some word => exact ⟨word, rfl, fun heq => hmagic ⟨j, hj4, by rw [hword, heq]⟩⟩
    by_cases hzero : temp = []
    · exact hsafe ⟨0, .refl, by rw [hzero]; decide⟩
    · have hdvd : ¬4 ∣ temp.length := fun hdvd => hlen ⟨hdvd, hzero⟩
      exact hsafe ⟨4 * (temp.length / 4), hall _ (by omega) (by omega), by omega⟩
  -- a multiple of four is searched in whole words, and a magic ends the search before the end
  · rintro (⟨hdvd, hne⟩ | ⟨m, hm4, hmagic⟩) ⟨k, hreach, hout⟩
    · obtain ⟨hk4, hlt, -⟩ := reaches_needleTurn_iff.mp hreach
      have hpos := List.length_pos_of_ne_nil hne
      omega
    · obtain ⟨hk4, -, hbefore⟩ := reaches_needleTurn_iff.mp hreach
      have hin := lt_of_loadWord hmagic
      have hlt : m < k := by omega
      obtain ⟨word, hword, hother⟩ := hbefore m hlt hm4
      exact hother (Option.some.inj (hword.symm.trans hmagic))

/-- The magic is in the blob or the search ends at the end of the blob, and the list of tags behind
the magic is in the blob. -/
structure TempFits (e : Endian) (tagId : UInt16) (temp : List UInt8) : Prop where
  needle : NeedleFits e temp
  tags : ∀ k, FirstMagic e temp k →
    PayloadFits e (temp.drop (k + 4)) (temp.drop (k + 4)).length tagId

/-- The unpacked data are read inside exactly under the condition on them. -/
private theorem unpackTemp_ne_none_iff {temp : List UInt8} :
    env.unpackTemp tagId temp ≠ none ↔ TempFits env.endian tagId temp := by
  -- the decoder never reads outside, so only the tag list matters
  have hdecode : ∀ buf, env.unpackTag env.rleDecode tagId buf buf.length ≠ none ↔
      PayloadFits env.endian buf buf.length tagId :=
    fun buf => unpackTag_ne_none_iff (rleDecode_ne_none env)
  constructor
  · intro hsafe
    constructor
    · rw [← findNeedle_ne_none_iff env]
      intro hnone
      rw [HcEnv.unpackTemp, hnone] at hsafe
      exact hsafe rfl
    · intro k hfirst
      rw [HcEnv.unpackTemp, findNeedle_ok_iff.mpr ⟨k, hfirst, rfl⟩] at hsafe
      exact (hdecode _).mp hsafe
  · intro h
    rw [HcEnv.unpackTemp]
    cases hfind : env.findNeedle temp with
    | none => exact absurd hfind ((findNeedle_ne_none_iff env).mpr h.needle)
    | some r =>
      cases r with
      | error ret => simp
      | ok rest =>
        obtain ⟨k, hfirst, rfl⟩ := findNeedle_ok_iff.mp hfind
        exact (hdecode _).mpr (h.tags k hfirst)

/-! ### Data that are unpacked -/

/-- `inlen` behind the magic: a payload that is shorter makes it wrap around. -/
private theorem toNat_inlen (env : HcEnv w) (tlen : UInt16) :
    (BitVec.ofNat w tlen.toNat - 4).toNat =
      if 4 ≤ tlen.toNat then tlen.toNat - 4 else 2 ^ w - (4 - tlen.toNat) := by
  have hlen := tlen.toNat_lt
  have hwidth := env.width
  have hpow : 2 ^ 32 ≤ 2 ^ w := Nat.pow_le_pow_right (by omega) (by omega)
  have hfour : (4 : BitVec w).toNat = 4 := Nat.mod_eq_of_lt (show 4 < 2 ^ w by omega)
  have htlen : (BitVec.ofNat w tlen.toNat).toNat = tlen.toNat := Nat.mod_eq_of_lt (by omega)
  rw [BitVec.toNat_sub, hfour, htlen]
  split
  · next h => rw [show 2 ^ w - 4 + tlen.toNat = tlen.toNat - 4 + 2 ^ w by omega, Nat.add_mod_right,
      Nat.mod_eq_of_lt (by omega)]
  · next h => rw [Nat.mod_eq_of_lt (by omega)]; omega

/-- A payload behind `RB_MAGIC_LZOR`: where it is decompressed it is no shorter than the magic, and
the blob that it becomes can be searched. -/
def LzorFits (env : HcEnv w) (tagId : UInt16) (inbuf : List UInt8) (tlen : UInt16) : Prop :=
  env.kmalloc = true → tlen.toNat - 4 + 1380 ≤ rbArtSize → 4 ≤ tlen.toNat ∧
    ((env.lzo (env.lzorPrefix ++ inbuf.take (tlen.toNat - 4)) rbArtSize).1 = 0 ∨
        (env.lzo (env.lzorPrefix ++ inbuf.take (tlen.toNat - 4)) rbArtSize).1 = lzoInputNotConsumed →
      TempFits env.endian tagId (env.lzo (env.lzorPrefix ++ inbuf.take (tlen.toNat - 4)) rbArtSize).2)

/-- What is decompressed: the prefix and the payload, if they fit into the output. -/
private theorem unpackLzor_eq {inbuf : List UInt8} {tlen : UInt16}
    (h : tlen.toNat ≤ inbuf.length + 4)
    (hlen : 4 ≤ tlen.toNat) :
    hcWlanDataUnpackLzor env tagId inbuf (BitVec.ofNat w tlen.toNat - 4) =
      if tlen.toNat - 4 + 1380 > rbArtSize then some (.error (-efbig))
      else if env.kmalloc = false then some (.error (-enomem))
      else
        let r := env.lzo (env.lzorPrefix ++ inbuf.take (tlen.toNat - 4)) rbArtSize
        if r.1 ≠ 0 ∧ r.1 ≠ lzoInputNotConsumed then some (.error r.1)
        else env.unpackTemp tagId r.2 := by
  have hlt := tlen.toNat_lt
  have hwidth := env.width
  have hpow : 2 ^ 32 ≤ 2 ^ w := Nat.pow_le_pow_right (by omega) (by omega)
  have hinlen := toNat_inlen env tlen
  rw [if_pos hlen] at hinlen
  have hart : (BitVec.ofNat w rbArtSize).toNat = rbArtSize :=
    Nat.mod_eq_of_lt (show 0x10000 < 2 ^ w by omega)
  have hprefix : (BitVec.ofNat w 1380).toNat = 1380 := Nat.mod_eq_of_lt (by omega)
  -- neither sum wraps
  have hsum : (BitVec.ofNat w tlen.toNat - 4 + BitVec.ofNat w 1380).toNat = tlen.toNat - 4 + 1380 := by
    rw [BitVec.toNat_add_of_lt (by omega), hinlen, hprefix]
  rw [hcWlanDataUnpackLzor]
  simp only [env.length_lzorPrefix, gt_iff_lt, BitVec.lt_def, hart, hsum, hinlen]
  split
  · rfl
  · next hroom =>
    rw [if_neg (show ¬(inbuf.length < tlen.toNat - 4 ∨ rbArtSize < 1380 + (tlen.toNat - 4)) by omega)]

/-- A payload that is shorter than the magic is copied as if it had no end. -/
private theorem unpackLzor_short {inbuf : List UInt8} {tlen : UInt16} (hlen : tlen.toNat < 4) :
    hcWlanDataUnpackLzor env tagId inbuf (BitVec.ofNat w tlen.toNat - 4) =
      if env.kmalloc = false then some (.error (-enomem)) else none := by
  have hwidth := env.width
  have hpow : 2 ^ 32 ≤ 2 ^ w := Nat.pow_le_pow_right (by omega) (by omega)
  have hinlen := toNat_inlen env tlen
  rw [if_neg (by omega)] at hinlen
  have hart : (BitVec.ofNat w rbArtSize).toNat = rbArtSize :=
    Nat.mod_eq_of_lt (show 0x10000 < 2 ^ w by omega)
  have hprefix : (BitVec.ofNat w 1380).toNat = 1380 := Nat.mod_eq_of_lt (by omega)
  -- `tlen - 4` wraps, and the sum with the prefix wraps back below the limit
  have hsum : (BitVec.ofNat w tlen.toNat - 4 + BitVec.ofNat w 1380).toNat =
      1380 - (4 - tlen.toNat) := by
    rw [BitVec.toNat_add, hinlen, hprefix,
      show 2 ^ w - (4 - tlen.toNat) + 1380 = 1380 - (4 - tlen.toNat) + 2 ^ w by omega,
      Nat.add_mod_right, Nat.mod_eq_of_lt (by omega)]
  have hroom : ¬rbArtSize < 1380 - (4 - tlen.toNat) := by
    rw [rbArtSize]
    omega
  -- the copy takes the wrapped length, which is far more than the buffer
  have hcopy : rbArtSize < 1380 + (2 ^ w - (4 - tlen.toNat)) := by
    rw [rbArtSize]
    omega
  rw [hcWlanDataUnpackLzor]
  simp only [env.length_lzorPrefix, gt_iff_lt, BitVec.lt_def, hart, hsum, hinlen]
  rw [if_neg hroom]
  split
  · rfl
  · rw [if_pos (.inr hcopy)]

/-- Compressed data are read inside exactly under the condition on what they expand to. -/
private theorem unpackLzor_ne_none_iff {inbuf : List UInt8} {tlen : UInt16}
    (h : tlen.toNat ≤ inbuf.length + 4) :
    hcWlanDataUnpackLzor env tagId inbuf (BitVec.ofNat w tlen.toNat - 4) ≠ none ↔
      LzorFits env tagId inbuf tlen := by
  rw [LzorFits]
  -- a tag shorter than its magic wraps, any other is checked against the room
  by_cases hlen : 4 ≤ tlen.toNat
  · rw [unpackLzor_eq h hlen]
    by_cases hroom : tlen.toNat - 4 + 1380 > rbArtSize
    · rw [if_pos hroom]
      exact iff_of_true (by simp) fun _ hle => by omega
    · rw [if_neg hroom]
      by_cases hmemory : env.kmalloc = false
      · rw [if_pos hmemory]
        exact iff_of_true (by simp) fun htrue => by rw [hmemory] at htrue; cases htrue
      · rw [if_neg hmemory]
        simp only
        by_cases hret : (env.lzo (env.lzorPrefix ++ inbuf.take (tlen.toNat - 4)) rbArtSize).1 = 0 ∨
            (env.lzo (env.lzorPrefix ++ inbuf.take (tlen.toNat - 4)) rbArtSize).1 =
              lzoInputNotConsumed
        · rw [if_neg (by omega), unpackTemp_ne_none_iff]
          exact ⟨fun hfits _ _ => ⟨hlen, fun _ => hfits⟩,
            fun hfits => (hfits (Bool.of_not_eq_false hmemory) (by omega)).2 hret⟩
        · rw [if_pos (not_or.mp hret)]
          exact iff_of_true (by simp) fun _ _ => ⟨hlen, fun hret' => absurd hret' hret⟩
  · rw [unpackLzor_short (by omega)]
    by_cases hmemory : env.kmalloc = false
    · rw [if_pos hmemory]
      exact iff_of_true (by simp) fun htrue => by rw [hmemory] at htrue; cases htrue
    · rw [if_neg hmemory]
      refine iff_of_false (fun h => h rfl) fun hfits => hlen ?_
      exact (hfits (Bool.of_not_eq_false hmemory) (by rw [rbArtSize]; omega)).1

/-- A payload starts with a word, and what is behind a magic can be unpacked. -/
def WlanFits (env : HcEnv w) (tagId : UInt16) (hcBuf : List UInt8) (tofs tlen : UInt16) : Prop :=
  ∃ magic, loadWord env.endian hcBuf tofs.toNat = some magic ∧
    (magic = rbMagicLzor → LzorFits env tagId ((hcBuf.drop tofs.toNat).drop 4) tlen) ∧
    (magic = rbMagicErd → PayloadFits env.endian
      (((hcBuf.drop tofs.toNat).drop 4).take (BitVec.ofNat w tlen.toNat - 4).toNat)
      (BitVec.ofNat w tlen.toNat - 4).toNat tagId)

/-- The data of the radio are read inside exactly under their condition. -/
private theorem hcWlanDataUnpack_ne_none_iff {tofs tlen : UInt16}
    (h : tofs.toNat + tlen.toNat ≤ hcBuf.length) :
    hcWlanDataUnpack env tagId hcBuf tofs tlen ≠ none ↔ WlanFits env tagId hcBuf tofs tlen := by
  rw [hcWlanDataUnpack, if_neg (not_lt.mpr h), WlanFits]
  cases hword : loadWord env.endian hcBuf tofs.toNat with
  | none => simp
  | some magic =>
    simp only [Option.some.injEq, exists_eq_left']
    -- the magic decides which of the formats is read
    by_cases hlzor : magic = rbMagicLzor
    · have herd : magic ≠ rbMagicErd := by
        rw [hlzor]
        decide
      have hlen : tlen.toNat ≤ ((hcBuf.drop tofs.toNat).drop 4).length + 4 := by
        rw [List.length_drop, List.length_drop]
        omega
      rw [if_pos hlzor, unpackLzor_ne_none_iff hlen]
      exact ⟨fun hfits => ⟨fun _ => hfits, fun heq => absurd heq herd⟩, fun hfits => hfits.1 hlzor⟩
    · rw [if_neg hlzor]
      by_cases herd : magic = rbMagicErd
      · rw [if_pos herd, hcWlanDataUnpackErd, unpackTag_ne_none_iff (by simp)]
        exact ⟨fun hfits => ⟨fun heq => absurd heq hlzor, fun _ => hfits⟩, fun hfits => hfits.2 herd⟩
      · rw [if_neg herd]
        refine iff_of_true ?_ ⟨fun heq => absurd heq hlzor, fun heq => absurd heq herd⟩
        split
        · exact rleDecode_ne_none env _ _
        · simp

/-! ### The result -/

/-- What a reader needs of a payload that is in the buffer. -/
def Reader.Fits (env : HcEnv w) (hcBuf : List UInt8) (ofs len : UInt16) : Reader → Prop
  | attr tshow => len ≠ 0 → tshow.Fits hcBuf (ofs + 4).toNat
  | wlan erdTagId => len ≠ 0 → WlanFits env erdTagId hcBuf (ofs + 4) len

/-- What a reader does with a payload that was found behind the magic of the partition. -/
theorem Reader.run_ne_none_iff (reader : Reader)
    (hmagic : 4 ≤ hcBuf.length) (h : ofs.toNat + len.toNat ≤ (hcBuf.drop 4).length) :
    reader.run env hcBuf ofs len ≠ none ↔ reader.Fits env hcBuf ofs len := by
  -- the offset is from behind the magic, and `ofs + 4` may only wrap downwards
  have hin : (ofs + 4).toNat + len.toNat ≤ hcBuf.length := by
    have hle : (ofs + 4).toNat ≤ ofs.toNat + 4 := by
      rw [UInt16.toNat_add]
      exact Nat.mod_le _ _
    rw [List.length_drop] at h
    omega
  cases reader with
  | attr tshow =>
    rw [Reader.run, Reader.Fits, ne_eq, Option.map_eq_none_iff]
    exact hcAttrShow_ne_none_iff tshow hin
  | wlan erdTagId =>
    rw [Reader.run, Reader.Fits]
    by_cases hzero : len = 0
    · rw [if_pos hzero]
      exact iff_of_true (by simp) fun hne => absurd hzero hne
    · rw [if_neg hzero, ne_eq, Option.map_eq_none_iff]
      exact (hcWlanDataUnpack_ne_none_iff hin).trans ⟨fun hfits _ => hfits, fun hfits => hfits hzero⟩

/-- The lookup of a tag in a hard config, behind the magic, and what a reader does with what was
found. -/
structure Safe (env : HcEnv w) (hcBuf : List UInt8) (tagId : UInt16) (reader : Reader) : Prop where
  lookup : LookupSafe env.endian (hcBuf.drop 4) tagId
  read : ∀ ofs len, env.tagFind (hcBuf.drop 4) (hcBuf.drop 4).length tagId = some (.ok (ofs, len)) →
    reader.run env hcBuf ofs len ≠ none

/-- The list of tags is in the buffer, and so is what the reader needs of the payload. -/
structure Fits (env : HcEnv w) (hcBuf : List UInt8) (tagId : UInt16) (reader : Reader) : Prop where
  tags : TagsFit env.endian (hcBuf.drop 4) tagId
  payload : ∀ p node, Visited env.endian (hcBuf.drop 4) (hcBuf.drop 4).length tagId p →
    p + 4 < (hcBuf.drop 4).length → loadWord env.endian (hcBuf.drop 4) p = some node → node ≠ 0 →
    tagId = nodeId node → reader.Fits env hcBuf (UInt16.ofNat (p + 4)) (nodeLen node)

/-- Neither the lookup nor the readers check where a payload ends, or a text, or what is nested in a
payload: all is well just where the flash has it right. -/
theorem safe_iff (env : HcEnv w) (hcBuf : List UInt8) (tagId : UInt16) (reader : Reader) :
    Safe env hcBuf tagId reader ↔ Fits env hcBuf tagId reader := by
  -- What is found is the payload of a node on the way.
  have hread : ∀ {p node : Nat}, TagsFit env.endian (hcBuf.drop 4) tagId →
      Visited env.endian (hcBuf.drop 4) (hcBuf.drop 4).length tagId p →
      p + 4 < (hcBuf.drop 4).length → loadWord env.endian (hcBuf.drop 4) p = some node → node ≠ 0 →
      tagId = nodeId node → (reader.run env hcBuf (UInt16.ofNat (p + 4)) (nodeLen node) ≠ none ↔
        reader.Fits env hcBuf (UInt16.ofNat (p + 4)) (nodeLen node)) := by
    intro p node htags hvisited hin hword hnode hsame
    have hlen : (hcBuf.drop 4).length = hcBuf.length - 4 := List.length_drop
    obtain ⟨node', hword', -, hpayload⟩ := htags p hvisited (by omega)
    cases hword'.symm.trans hword
    exact reader.run_ne_none_iff (by omega) (hpayload hnode hsame hin)
  constructor
  · intro h
    have htags := lookupSafe_iff.mp h.lookup
    refine ⟨htags, fun p node hvisited hin hword hnode hsame => ?_⟩
    have hfind : env.tagFind _ _ _ = _ := (tagFind_iff hvisited.tagId_ne).mpr
      ⟨p, hvisited, tagTurn_eq_ok_iff.mpr ⟨node, hin, hword, hnode, hsame, rfl, rfl⟩⟩
    exact (hread htags hvisited hin hword hnode hsame).mp (h.read _ _ hfind)
  · intro h
    refine ⟨lookupSafe_iff.mpr h.tags, fun ofs len hfind => ?_⟩
    have hid : tagId ≠ 0 := by
      rintro rfl
      rw [HcEnv.tagFind, routerbootTagFind_zero] at hfind
      cases hfind
    obtain ⟨p, hvisited, hturn⟩ := (tagFind_iff hid).mp hfind
    obtain ⟨node, hin, hword, hnode, hsame, rfl, rfl⟩ := tagTurn_eq_ok_iff.mp hturn
    exact (hread h.tags hvisited hin hword hnode hsame).mpr
      (h.payload p node hvisited hin hword hnode hsame)

/-! ### A node at the end of the flash -/

private theorem plainEnv_prefix : (List.replicate 1380 (0 : UInt8)).length = 1380 :=
  List.length_replicate

private theorem plainEnv_width : 32 = 32 ∨ 32 = 64 := .inl rfl

/-- A machine where LZO gives nothing. -/
def plainEnv : HcEnv 32 where
  endian := .little
  lzorPrefix := List.replicate 1380 0
  lzo := fun _ _ => (0, [])
  kmalloc := true
  width := plainEnv_width
  length_lzorPrefix := plainEnv_prefix
  length_lzo_le := fun _ _ => Nat.zero_le _

/-- `Hard`, and a node of `RB_ID_FLASH_INFO` that says that 4096 bytes are behind it. -/
def longNode : List UInt8 := [0x48, 0x61, 0x72, 0x64, 0x03, 0x00, 0x00, 0x10, 0, 0, 0, 0]

/-- The payload that is reported ends behind the flash, and reading it does too. -/
theorem not_safe_longNode : ¬Safe plainEnv longNode 3 (.attr .u32s) ∧
    plainEnv.tagFind (longNode.drop 4) 8 3 = some (.ok (4, 0x1000)) ∧
    (Reader.attr .u32s).run plainEnv longNode 4 0x1000 = none := by
  have hfind : plainEnv.tagFind (longNode.drop 4) 8 3 = some (.ok (4, 0x1000)) := by decide
  have hrun : (Reader.attr .u32s).run plainEnv longNode 4 0x1000 = none := by
    set_option maxRecDepth 8000 in decide
  exact ⟨fun h => h.read 4 0x1000 hfind hrun, hfind, hrun⟩

end HandsomeMod.Native.RbHardconfig
