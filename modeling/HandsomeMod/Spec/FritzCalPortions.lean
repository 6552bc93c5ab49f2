import HandsomeMod.ForStd.Except
import HandsomeMod.Native.FritzCal

/-!
# When calibration data are extracted right

`inf` applies its limit and what it skips to one portion of the inflated data after the other. The
result is right exactly if the first portion reaches behind what is skipped and the later ones are
not empty, up to the limit.
-/

namespace HandsomeMod.Native.FritzCal

open ForStd

/-! ### Streams -/

/-- A call of `inflate` that ends `inf`. -/
def Portion.failed (p : Portion) : Bool :=
  p.ret == .needDict || p.ret == .dataError || p.ret == .memError

/-- The calls of `inflate`, if no limit ends them. -/
def calls (feeds : List Feed) : List Portion := feeds.flatMap fun f => f.fulls ++ [f.last]

/-- The portions in front of an error. -/
def delivered (ps : List Portion) : List Portion := ps.takeWhile fun p => !p.failed

/-- The bytes of some portions. -/
def bytes (ps : List Portion) : List UInt8 := ps.flatMap Portion.out

/-- What is read and inflated, as `inflate` documents it. -/
structure Stream where
  feeds : List Feed
  /-- Behind its end a stream delivers nothing. -/
  after_end : ∀ a p b, calls feeds = a ++ p :: b → p.ret = .streamEnd →
    ∀ q ∈ b, q.out = [] ∧ q.ret = .streamEnd
  /-- Nothing is read behind the end. -/
  end_last : ∀ a f b, feeds = a ++ f :: b → f.last.ret = .streamEnd → b = []

namespace Stream

variable (s : Stream)

/-- The portions that a stream delivers. -/
def portions : List Portion := delivered (calls s.feeds)

/-- The inflated data. -/
def data : List UInt8 := bytes s.portions

/-- The stream has an end, and no error in front of it. -/
def Valid : Prop :=
  (∀ p ∈ calls s.feeds, p.failed = false) ∧ ∃ p ∈ calls s.feeds, p.ret = .streamEnd

end Stream

/-- The bytes behind a call that has no room for an error. -/
private theorem delivered_cons_failed {p : Portion} (ps : List Portion) (h : p.failed = true) :
    delivered (p :: ps) = [] := by
  simp [delivered, h]

/-- A portion that did not fail is delivered. -/
private theorem delivered_cons {p : Portion} (ps : List Portion) (h : p.failed = false) :
    delivered (p :: ps) = p :: delivered ps := by
  simp [delivered, h]

private theorem bytes_cons (p : Portion) (ps : List Portion) : bytes (p :: ps) = p.out ++ bytes ps
    := rfl

/-- The bytes of two runs of `inflate` follow one another. -/
private theorem bytes_append (ps ps' : List Portion) : bytes (ps ++ ps') = bytes ps ++ bytes ps' :=
  List.flatMap_append

/-! ### A call -/

variable {size : SizeT}

/-- A bit vector is zero exactly as a number. -/
private theorem toNat_eq_zero_iff {w : Nat} (x : BitVec w) : x.toNat = 0 ↔ x = 0 := by
  rw [← BitVec.toNat_inj]
  simp

/-- The bytes that a limit leaves; 0 is all that can be counted. -/
def room (limit : BitVec size.bits) : Nat := if limit = 0 then 2 ^ size.bits else limit.toNat

/-- `CHUNK` fits a `size_t`. -/
private theorem chunk_lt (size : SizeT) : chunk < 2 ^ size.bits := by
  have hpow := Nat.pow_le_pow_right (show 0 < 2 by omega) size.bits_ge
  rw [chunk]
  omega

/-- There is room for a byte at least: a limit of zero is none. -/
private theorem room_pos (limit : BitVec size.bits) : 0 < room limit := by
  rw [room]
  split
  · exact Nat.two_pow_pos size.bits
  · next hne =>
    exact Nat.pos_of_ne_zero fun hzero => hne ((toNat_eq_zero_iff limit).mp hzero)

/-- The room fits a `size_t`, or is all of it. -/
private theorem room_le (limit : BitVec size.bits) : room limit ≤ 2 ^ size.bits := by
  rw [room]
  split
  · exact le_rfl
  · exact limit.isLt.le

/-- `special_min` takes what there is room for. -/
private theorem specialMin_toNat (limit : BitVec size.bits) {n : Nat} (hn : n ≤ chunk) :
    (specialMin limit (BitVec.ofNat _ n)).toNat = min (room limit) n := by
  have hlt := chunk_lt size
  have hofNat : (BitVec.ofNat size.bits n).toNat = n := by
    rw [BitVec.toNat_ofNat, Nat.mod_eq_of_lt (by omega)]
  rw [specialMin, room]
  split
  · rw [hofNat]
    omega
  · split
    · next hlimit =>
      rw [BitVec.lt_def, hofNat] at hlimit
      omega
    · next hlimit =>
      rw [BitVec.lt_def, hofNat] at hlimit
      omega

/-- A portion that failed ends the extraction with an error. -/
private theorem inflateTurn_failed {s : State size} {p : Portion} (h : p.failed = true) :
    ∃ ret, inflateTurn s p = .ok (.done ret s.dest) ∧ ret ≠ .ok := by
  rw [Portion.failed] at h
  rw [inflateTurn]
  cases hret : p.ret with
  | needDict => exact ⟨_, rfl, by decide⟩
  | dataError => exact ⟨_, rfl, by decide⟩
  | memError => exact ⟨_, rfl, by decide⟩
  | ok => rw [hret] at h; cases h
  | streamEnd => rw [hret] at h; cases h
  | bufError => rw [hret] at h; cases h

/-- The branch for a portion. -/
private theorem inflateTurn_portion {s : State size} {p : Portion} (h : p.failed = false) :
    inflateTurn s p =
      let out := writeBytes s.out 0 p.out
      let written := specialMin s.limit (BitVec.ofNat _ p.out.length) - s.skip
      if written = 0 then .ok (.done .errno s.dest)
      else if s.skip.toNat + written.toNat > chunk then .error .outOfBounds
      else
        let bytes := bytesAt out s.skip.toNat written.toNat
        .ok (.next
          { limit := s.limit - written
            skip := 0
            ret := p.ret
            out := out
            totalOut := s.totalOut + p.out.length
            dest := s.dest ++ bytes.zipIdx (s.totalOut + s.skip.toNat) }) := by
  rw [Portion.failed] at h
  rw [inflateTurn]
  cases hret : p.ret with
  | needDict => rw [hret] at h; cases h
  | dataError => rw [hret] at h; cases h
  | memError => rw [hret] at h; cases h
  | ok => rfl
  | streamEnd => rfl
  | bufError => rfl

/-- The difference of `special_min` and `skip`. -/
private theorem written_toNat (s : State size) {n : Nat} (hn : n ≤ chunk) :
    (specialMin s.limit (BitVec.ofNat _ n) - s.skip).toNat =
      (2 ^ size.bits - s.skip.toNat + min (room s.limit) n) % 2 ^ size.bits := by
  rw [BitVec.toNat_sub, specialMin_toNat s.limit hn]

/-- More is skipped than the portion has. -/
private theorem inflateTurn_fault {s : State size} {p : Portion} (h : p.failed = false)
    (hn : p.out.length ≤ chunk) (hskip : min (room s.limit) p.out.length < s.skip.toNat) :
    inflateTurn s p = .error .outOfBounds := by
  have hwritten := written_toNat s hn
  have hlt := s.skip.isLt
  have hchunk := chunk_lt size
  rw [Nat.mod_eq_of_lt (by omega)] at hwritten
  have hne : specialMin s.limit (BitVec.ofNat _ p.out.length) - s.skip ≠ 0 := by
    intro hzero
    rw [← toNat_eq_zero_iff] at hzero
    omega
  rw [inflateTurn_portion h]
  simp only [hne, if_false]
  rw [if_pos (by omega)]

/-- Nothing of the portion is left to write. -/
private theorem inflateTurn_errno {s : State size} {p : Portion} (h : p.failed = false)
    (hn : p.out.length ≤ chunk) (hskip : s.skip.toNat = min (room s.limit) p.out.length) :
    inflateTurn s p = .ok (.done .errno s.dest) := by
  have hwritten := written_toNat s hn
  have hlt := s.skip.isLt
  rw [hskip, Nat.sub_add_cancel (by omega), Nat.mod_self] at hwritten
  have hzero : specialMin s.limit (BitVec.ofNat _ p.out.length) - s.skip = 0 :=
    (toNat_eq_zero_iff _).mp hwritten
  rw [inflateTurn_portion h]
  simp only [hzero, if_true]

/-- The state behind a portion of which something is written. -/
def State.wrote (s : State size) (p : Portion) : State size :=
  let count := min (room s.limit) p.out.length - s.skip.toNat
  { limit := BitVec.ofNat _ (room s.limit - count)
    skip := 0
    ret := p.ret
    out := writeBytes s.out 0 p.out
    totalOut := s.totalOut + p.out.length
    dest := s.dest ++
      ((p.out.drop s.skip.toNat).take count).zipIdx (s.totalOut + s.skip.toNat) }

/-- A portion that goes beyond the skipped part is written. -/
private theorem inflateTurn_next {s : State size} {p : Portion} (h : p.failed = false)
    (hn : p.out.length ≤ chunk) (hskip : s.skip.toNat < min (room s.limit) p.out.length) :
    inflateTurn s p = .ok (.next (s.wrote p)) := by
  have hchunk := chunk_lt size
  have hroom := room_le s.limit
  have hlt := s.skip.isLt
  -- both subtractions are in the width of `size_t`; here neither wraps
  have hwritten : (specialMin s.limit (BitVec.ofNat _ p.out.length) - s.skip).toNat =
      min (room s.limit) p.out.length - s.skip.toNat := by
    have hsum : 2 ^ size.bits - s.skip.toNat + min (room s.limit) p.out.length =
        min (room s.limit) p.out.length - s.skip.toNat + 2 ^ size.bits := by omega
    rw [written_toNat s hn, hsum, Nat.add_mod_right, Nat.mod_eq_of_lt (by omega)]
  have hne : specialMin s.limit (BitVec.ofNat _ p.out.length) - s.skip ≠ 0 := by
    intro hzero
    rw [← toNat_eq_zero_iff] at hzero
    omega
  -- `limit` 0 stands for no limit, and the subtraction wraps it to the room of the type
  have hlimit : s.limit - (specialMin s.limit (BitVec.ofNat _ p.out.length) - s.skip) =
      BitVec.ofNat _ (room s.limit - (min (room s.limit) p.out.length - s.skip.toNat)) := by
    apply BitVec.eq_of_toNat_eq
    rw [BitVec.toNat_sub, hwritten, BitVec.toNat_ofNat]
    rw [room] at hskip hroom ⊢
    split
    · next hzero =>
      rw [if_pos hzero] at hskip
      have hlimit : s.limit.toNat = 0 := (toNat_eq_zero_iff _).mpr hzero
      rw [hlimit, Nat.add_zero]
    · next hzero =>
      rw [if_neg hzero] at hskip hroom
      have hsum : 2 ^ size.bits - (min s.limit.toNat p.out.length - s.skip.toNat) +
          s.limit.toNat = s.limit.toNat - (min s.limit.toNat p.out.length - s.skip.toNat) +
            2 ^ size.bits := by omega
      rw [hsum, Nat.add_mod_right]
  have hout : bytesAt (writeBytes s.out 0 p.out) s.skip.toNat
      (min (room s.limit) p.out.length - s.skip.toNat) =
      (p.out.drop s.skip.toNat).take (min (room s.limit) p.out.length - s.skip.toNat) := by
    have hsub := bytesAt_sub (bytesAt_writeBytes_self s.out 0 p.out)
      (show s.skip.toNat + (min (room s.limit) p.out.length - s.skip.toNat) ≤ p.out.length by omega)
    rwa [Nat.zero_add] at hsub
  rw [inflateTurn_portion h]
  simp only [hne, if_false, hwritten, hlimit, hout]
  rw [if_neg (by omega)]
  rfl

/-- What was written is taken from the room. -/
private theorem limit_wrote (s : State size) (p : Portion)
    (hskip : s.skip.toNat < min (room s.limit) p.out.length) :
    (s.wrote p).limit.toNat =
      room s.limit - (min (room s.limit) p.out.length - s.skip.toNat) := by
  have hroom := room_le s.limit
  rw [State.wrote, BitVec.toNat_ofNat, Nat.mod_eq_of_lt (by omega)]

/-! ### The calls one after the other -/

/-- `inf` over the calls that are left. -/
def runCalls (s : State size) : List Portion → Except Fault (InfRet × List (UInt8 × Nat))
  | [] => .ok (finish s)
  | p :: ps => do
    match ← inflateTurn s p with
    | .done ret dest => .ok (ret, dest)
    | .next s => if s.limit = 0 then .ok (finish s) else runCalls s ps

/-- A turn remembers what `inflate` returned. -/
private theorem ret_of_next {s s' : State size} {p : Portion} (h : inflateTurn s p = .ok (.next s'))
    :
    s'.ret = p.ret := by
  cases hfailed : p.failed with
  | true =>
    obtain ⟨ret, hturn, -⟩ := inflateTurn_failed (s := s) hfailed
    rw [hturn] at h
    cases h
  | false =>
    rw [inflateTurn_portion hfailed] at h
    simp only at h
    split at h
    -- only a call with room left goes on to the next
    · cases h
    · split at h
      · cases h
      · cases h
        rfl

/-- The outer loop goes through the calls of its first input, and goes on with the others. -/
private theorem infLoop_cons (s : State size) (f : Feed) (fs : List Feed)
    (hend : f.last.ret = .streamEnd → fs = [])
    (ih : ∀ s : State size, infLoop s fs = runCalls s (calls fs)) :
    infLoop s (f :: fs) = runCalls s (f.fulls ++ f.last :: calls fs) := by
  have hfulls := f.length_fulls
  rw [infLoop]
  generalize f.fulls = fulls at hfulls ⊢
  -- the inner loop runs while the output buffer comes back full, the last call ends it
  induction fulls generalizing s with
  | nil =>
    rw [List.nil_append, List.nil_append, inflateLoop, runCalls]
    cases hturn : inflateTurn s f.last with
    | error e => rfl
    | ok step =>
      cases step with
      | done ret dest => rfl
      | next s' =>
        have hret := ret_of_next hturn
        rw [ok_bind, ok_bind]
        simp only [Nat.ne_of_lt f.length_last, false_and, if_false, ok_bind]
        -- a limit that is used up ends both loops
        by_cases hlimit : s'.limit = 0
        · simp [hlimit]
        · by_cases hstream : f.last.ret = .streamEnd
          · rw [hend hstream] at ih ⊢
            simp [hret, hstream, calls, runCalls]
          · simp [hret, hstream, ih]
  | cons p ps ihp =>
    obtain ⟨hp, hps⟩ := List.forall_mem_cons.mp hfulls
    rw [List.cons_append, List.cons_append, inflateLoop, runCalls]
    cases hturn : inflateTurn s p with
    | error e => rfl
    | ok step =>
      cases step with
      | done ret dest => rfl
      | next s' =>
        rw [ok_bind, ok_bind]
        simp only [hp, true_and]
        by_cases hlimit : s'.limit = 0
        · simp [hlimit, ok_bind]
        · simp only [hlimit, ne_eq, not_false_eq_true, if_true, if_false]
          exact ihp s' hps

/-- The two loops are one run over the calls of `inflate`. -/
private theorem infLoop_eq (feeds : List Feed)
    (hend : ∀ a f b, feeds = a ++ f :: b → f.last.ret = .streamEnd → b = []) (s : State size) :
    infLoop s feeds = runCalls s (calls feeds) := by
  induction feeds generalizing s with
  | nil => rfl
  | cons f fs ih =>
    have hcalls : calls (f :: fs) = f.fulls ++ f.last :: calls fs := by
      rw [calls, List.flatMap_cons, List.append_assoc]
      rfl
    rw [hcalls]
    exact infLoop_cons s f fs (hend [] f fs rfl)
      (ih fun a g b heq => hend (f :: a) g b (by rw [heq, List.cons_append]))

/-! ### Behind the first portion -/

/-- What the last of some calls returns, or the one in front of them. -/
def lastRet (ret : InflateRet) : List Portion → InflateRet
  | [] => ret
  | p :: ps => lastRet p.ret ps

/-- The calls come to the end of the stream. -/
def Ends (ret : InflateRet) (ps : List Portion) : Prop :=
  (∀ p ∈ ps, p.failed = false) ∧ lastRet ret ps = .streamEnd

/-- No portion is empty before the limit is reached, but for the end of a stream that is not valid. -/
def NoGap (valid : Prop) : Nat → List Portion → Prop
  | _, [] => True
  | limit, p :: ps =>
    p.failed = true ∨ (p.out = [] ∧ bytes (delivered ps) = [] ∧ ¬valid) ∨
      (p.out ≠ [] ∧ (limit ≤ p.out.length ∨ NoGap valid (limit - p.out.length) ps))

/-- A portion that did not fail passes on what it returned. -/
private theorem ends_cons (ret : InflateRet) {p : Portion} (ps : List Portion)
    (h : p.failed = false) :
    Ends ret (p :: ps) ↔ Ends p.ret ps := by
  rw [Ends, Ends, List.forall_mem_cons, and_assoc]
  exact and_iff_right h

/-- What the rest of the calls writes, and when that is what the limit leaves of the data. -/
structure TailResult (s : State size) (ps : List Portion) (ret : InfRet)
    (more : List (UInt8 × Nat)) : Prop where
  run_eq : runCalls s ps = .ok (ret, s.dest ++ more)
  place_ge : ∀ x ∈ more, s.totalOut ≤ x.2
  length_le : more.length ≤ s.limit.toNat
  good_iff : (more = ((bytes (delivered ps)).take s.limit.toNat).zipIdx s.totalOut ∧
    (Ends s.ret ps → ret = .ok)) ↔ NoGap (Ends s.ret ps) s.limit.toNat ps

/-- The room of a limit. -/
private theorem room_of_ne_zero {limit : BitVec size.bits} (h : limit ≠ 0) :
    room limit = limit.toNat := if_neg h

/-- A portion in front of which nothing is skipped. -/
private theorem wrote_of_skip_zero {s : State size} {p : Portion} (hskip : s.skip = 0)
    (hlimit : s.limit ≠ 0) (hp : p.out ≠ []) :
    (s.wrote p).limit.toNat = s.limit.toNat - p.out.length ∧
      (s.wrote p).dest = s.dest ++ (p.out.take s.limit.toNat).zipIdx s.totalOut := by
  have hzero : s.skip.toNat = 0 := (toNat_eq_zero_iff _).mpr hskip
  have hpos : 0 < s.limit.toNat :=
    Nat.pos_of_ne_zero fun h => hlimit ((toNat_eq_zero_iff _).mp h)
  have hlen : 0 < p.out.length := List.length_pos_iff.mpr hp
  constructor
  · rw [limit_wrote s p (by rw [room_of_ne_zero hlimit]; omega), room_of_ne_zero hlimit]
    omega
  · rw [State.wrote, room_of_ne_zero hlimit, hzero, List.drop_zero, Nat.sub_zero, Nat.add_zero]
    simp only
    -- the call has more than the limit, or all of its output is written
    rcases Nat.le_total s.limit.toNat p.out.length with hle | hle
    · rw [Nat.min_eq_left hle]
    · rw [Nat.min_eq_right hle, List.take_length, List.take_of_length_le hle]

/-- A limit that is not zero is positive. -/
private theorem limit_pos {s : State size} (hlimit : s.limit ≠ 0) : 0 < s.limit.toNat :=
  Nat.pos_of_ne_zero fun h => hlimit ((toNat_eq_zero_iff _).mp h)

section Tail

variable {s : State size} {p : Portion} (ps : List Portion)

/-- Without further portions nothing is written. -/
private theorem tailResult_nil (hlimit : s.limit ≠ 0) : TailResult s [] (finish s).1 [] := by
  refine ⟨?_, by simp, Nat.zero_le _, fun _ => trivial, fun _ => ⟨by simp [delivered, bytes], ?_⟩⟩
  · rw [runCalls, List.append_nil]
    rfl
  · rintro ⟨-, hret⟩
    rw [finish, if_neg hlimit]
    exact if_pos hret

/-- A portion that failed ends the run. -/
private theorem tailResult_failed (hfailed : p.failed = true) : ∃ ret, TailResult s (p :: ps) ret []
    := by
  obtain ⟨ret, hturn, -⟩ := inflateTurn_failed (s := s) hfailed
  refine ⟨ret, ?_, by simp, Nat.zero_le _, fun _ => .inl hfailed, fun _ => ⟨?_, ?_⟩⟩
  · rw [runCalls, hturn, List.append_nil]
    rfl
  · simp [delivered_cons_failed ps hfailed, bytes]
  · rintro ⟨hall, -⟩
    rw [hall p List.mem_cons_self] at hfailed
    cases hfailed

/-- `fwrite` of an empty portion is an error. -/
private theorem tailResult_empty (hfailed : p.failed = false) (hskip : s.skip = 0)
    (hlimit : s.limit ≠ 0)
    (hout : p.out = []) : TailResult s (p :: ps) .errno [] := by
  have hzero : s.skip.toNat = 0 := (toNat_eq_zero_iff _).mpr hskip
  have hpos := limit_pos hlimit
  have hturn := inflateTurn_errno (s := s) hfailed (by simp [hout])
    (by rw [hzero, hout, List.length_nil, Nat.min_zero])
  refine ⟨?_, by simp, Nat.zero_le _, ?_⟩
  · rw [runCalls, hturn, List.append_nil]
    rfl
  -- so what remains is about the calls behind this one, which are never made
  rw [delivered_cons ps hfailed, bytes_cons, hout, List.nil_append, NoGap, hfailed]
  simp only [Bool.false_eq_true, false_or, hout, ne_eq, not_true_eq_false, false_and, or_false,
    true_and]
  constructor
  · rintro ⟨hmore, hret⟩
    refine ⟨?_, fun hends => absurd (hret hends) (by decide)⟩
    have hlen := congrArg List.length hmore
    rw [List.length_nil, List.length_zipIdx, List.length_take] at hlen
    exact List.length_eq_zero_iff.mp (by omega)
  · rintro ⟨hbytes, hvalid⟩
    exact ⟨by simp [hbytes], fun hends => absurd hends hvalid⟩

variable (hfailed : p.failed = false) (hlen : p.out.length ≤ chunk) (hskip : s.skip = 0)
  (hlimit : s.limit ≠ 0) (hout : p.out ≠ [])

include hfailed hlen hskip hlimit hout

/-- Behind the skipped part every portion is written. -/
private theorem inflateTurn_wrote : inflateTurn s p = .ok (.next (s.wrote p)) := by
  have hzero : s.skip.toNat = 0 := (toNat_eq_zero_iff _).mpr hskip
  have hpos := limit_pos hlimit
  have hlenpos : 0 < p.out.length := List.length_pos_iff.mpr hout
  exact inflateTurn_next hfailed hlen (by rw [hzero, room_of_ne_zero hlimit]; omega)

/-- The limit is reached. -/
private theorem tailResult_full (hle : s.limit.toNat ≤ p.out.length) :
    TailResult s (p :: ps) .ok ((p.out.take s.limit.toNat).zipIdx s.totalOut) := by
  obtain ⟨hlimit', hdest⟩ := wrote_of_skip_zero hskip hlimit hout
  have hdone : (s.wrote p).limit = 0 := (toNat_eq_zero_iff _).mp (by omega)
  refine ⟨?_, fun x hx => ?_, ?_, fun _ => ?_, fun _ => ⟨?_, fun _ => rfl⟩⟩
  · rw [runCalls, inflateTurn_wrote hfailed hlen hskip hlimit hout, ok_bind]
    simp only [hdone, if_true]
    rw [finish, if_pos hdone, hdest]
  · exact (List.mk_mem_zipIdx_iff_le_and_getElem?_sub.mp hx).1
  · rw [List.length_zipIdx, List.length_take]
    omega
  · exact .inr (.inr ⟨hout, .inl hle⟩)
  · rw [delivered_cons ps hfailed, bytes_cons, List.take_append_of_le_length hle]

/-- The limit leaves room for another portion. -/
private theorem tailResult_step (hlt : p.out.length < s.limit.toNat) {ret : InfRet}
    {more : List (UInt8 × Nat)} (h : TailResult (s.wrote p) ps ret more) :
    TailResult s (p :: ps) ret (p.out.zipIdx s.totalOut ++ more) := by
  obtain ⟨hlimit', hdest⟩ := wrote_of_skip_zero hskip hlimit hout
  obtain ⟨hrun, hplace, hmore, hgood⟩ := h
  have hne : (s.wrote p).limit ≠ 0 := fun h => by
    rw [← toNat_eq_zero_iff] at h
    omega
  -- places are counted from the start of the stream
  have htotal : (s.wrote p).totalOut = s.totalOut + p.out.length := rfl
  have hret : (s.wrote p).ret = p.ret := rfl
  rw [List.take_of_length_le hlt.le] at hdest
  rw [hlimit'] at hmore hgood
  rw [htotal, hret, ← ends_cons s.ret ps hfailed] at hgood
  refine ⟨?_, fun x hx => ?_, ?_, ?_⟩
  · rw [runCalls, inflateTurn_wrote hfailed hlen hskip hlimit hout, ok_bind]
    simp only [hne, if_false]
    rw [hrun, hdest, List.append_assoc]
  · rcases List.mem_append.mp hx with hx | hx
    · exact (List.mk_mem_zipIdx_iff_le_and_getElem?_sub.mp hx).1
    · have hge := hplace x hx
      omega
  · rw [List.length_append, List.length_zipIdx]
    omega
  · have htake : (p.out ++ bytes (delivered ps)).take s.limit.toNat =
        p.out ++ (bytes (delivered ps)).take (s.limit.toNat - p.out.length) := by
      rw [List.take_append, List.take_of_length_le hlt.le]
    rw [delivered_cons ps hfailed, bytes_cons, htake, List.zipIdx_append,
      List.append_cancel_left_eq, NoGap, hfailed]
    simp only [Bool.false_eq_true, false_or, hout, false_and, ne_eq, not_false_eq_true, true_and,
      Nat.not_le.mpr hlt]
    exact hgood

end Tail

/-- What the run makes of the portions behind the skipped part. -/
private theorem runCalls_tail {ps : List Portion} (hlen : ∀ p ∈ ps, p.out.length ≤ chunk)
    (s : State size) (hskip : s.skip = 0) (hlimit : s.limit ≠ 0) :
    ∃ ret more, TailResult s ps ret more := by
  -- the call fails, delivers nothing, leaves some of the limit, or uses it up
  induction ps generalizing s with
  | nil => exact ⟨_, _, tailResult_nil hlimit⟩
  | cons p ps ih =>
    obtain ⟨hp, hps⟩ := List.forall_mem_cons.mp hlen
    cases hfailed : p.failed with
    | true =>
      obtain ⟨ret, h⟩ := tailResult_failed (s := s) ps hfailed
      exact ⟨ret, [], h⟩
    | false =>
      by_cases hout : p.out = []
      · exact ⟨_, _, tailResult_empty ps hfailed hskip hlimit hout⟩
      rcases Nat.lt_or_ge p.out.length s.limit.toNat with hlt | hle
      · obtain ⟨hlimit', -⟩ := wrote_of_skip_zero hskip hlimit hout
        have hne : (s.wrote p).limit ≠ 0 := fun h => by
          rw [← toNat_eq_zero_iff] at h
          omega
        obtain ⟨ret, more, h⟩ := ih hps (s.wrote p) rfl hne
        exact ⟨ret, _, tailResult_step ps hfailed hp hskip hlimit hout hlt h⟩
      · exact ⟨_, _, tailResult_full ps hfailed hp hskip hlimit hout hle⟩

/-! ### What comes between the portions -/

/-- No portion is empty while something is still to be written, in terms of positions. -/
private theorem noGap_iff (valid : Prop) {limit : Nat} (hlimit : 0 < limit) (ps : List Portion) :
    NoGap valid limit ps ↔ ∀ a q b, delivered ps = a ++ q :: b → q.out = [] →
      (bytes a).length < limit → bytes b = [] ∧ ¬valid := by
  -- the calls in order; each takes its output off the limit
  induction ps generalizing limit with
  | nil => simp [NoGap, delivered]
  | cons p ps ih =>
    rw [NoGap]
    cases hfailed : p.failed with
    | true => simp [delivered_cons_failed ps hfailed]
    | false =>
      rw [delivered_cons ps hfailed]
      by_cases hout : p.out = []
      · simp only [Bool.false_eq_true, false_or, hout, ne_eq, not_true_eq_false, false_and,
          or_false, true_and]
        refine ⟨fun h a q b heq _ _ => ⟨?_, h.2⟩, fun h => h [] p _ rfl hout hlimit⟩
        cases a with
        | nil =>
          rw [List.nil_append, List.cons.injEq] at heq
          rw [← heq.2]
          exact h.1
        | cons p' a =>
          rw [List.cons_append, List.cons.injEq] at heq
          have hbytes := h.1
          rw [heq.2, bytes_append, bytes_cons, List.append_eq_nil_iff, List.append_eq_nil_iff]
            at hbytes
          exact hbytes.2.2
      · simp only [Bool.false_eq_true, false_or, hout, false_and, ne_eq, not_false_eq_true,
          true_and]
        -- a call without output is not this one
        have hbehind : ∀ a q b, p :: delivered ps = a ++ q :: b → q.out = [] →
            ∃ a', a = p :: a' ∧ delivered ps = a' ++ q :: b := by
          intro a q b heq hq
          obtain ⟨-, hhead⟩ | htail := List.cons_eq_append_iff.mp heq
          · obtain ⟨rfl, -⟩ := List.cons.inj hhead
            exact absurd hq hout
          · exact htail
        rcases Nat.lt_or_ge p.out.length limit with hlt | hle
        · rw [or_iff_right (Nat.not_le.mpr hlt), ih (by omega)]
          constructor
          · intro h a q b heq hq hlen
            obtain ⟨a, rfl, hrest⟩ := hbehind a q b heq hq
            rw [bytes_cons, List.length_append] at hlen
            exact h a q b hrest hq (by omega)
          · intro h a q b heq hq hlen
            refine h (p :: a) q b (by rw [heq, List.cons_append]) hq ?_
            rw [bytes_cons, List.length_append]
            omega
        · refine ⟨fun _ a q b heq hq hlen => ?_, fun _ => .inl hle⟩
          obtain ⟨a, rfl, -⟩ := hbehind a q b heq hq
          rw [bytes_cons, List.length_append] at hlen
          omega

/-- The last return is the end of the stream exactly if some return is. -/
private theorem lastRet_eq_iff {p : Portion} {ps : List Portion}
    (hafter : ∀ a q b, p :: ps = a ++ q :: b → q.ret = .streamEnd → ∀ r ∈ b, r.ret = .streamEnd) :
    lastRet p.ret ps = .streamEnd ↔ ∃ q ∈ p :: ps, q.ret = .streamEnd := by
  induction ps generalizing p with
  | nil => simp [lastRet]
  | cons p' ps ih =>
    rw [lastRet, ih fun a q b heq => hafter (p :: a) q b (by rw [heq, List.cons_append])]
    refine ⟨fun h => ?_, fun h => ?_⟩
    · obtain ⟨q, hq, hret⟩ := h
      exact ⟨q, List.mem_cons_of_mem p hq, hret⟩
    · obtain ⟨q, hq, hret⟩ := h
      rcases List.mem_cons.mp hq with rfl | hq
      · exact ⟨p', List.mem_cons_self, hafter [] q _ rfl hret p' List.mem_cons_self⟩
      · exact ⟨q, hq, hret⟩

/-- `inflate` gives at most a chunk in a call. -/
private theorem length_out_le {feeds : List Feed} : ∀ p ∈ calls feeds, p.out.length ≤ chunk := by
  intro p hp
  rw [calls, List.mem_flatMap] at hp
  obtain ⟨f, -, hp⟩ := hp
  rcases List.mem_append.mp hp with hp | hp
  · exact (f.length_fulls p hp).le
  · rw [List.mem_singleton.mp hp]
    exact f.length_last.le

/-! ### `inf` -/

namespace Stream

variable (s : Stream) (limit skip : BitVec size.bits)

/-- What `inf` is to write. -/
def wanted : List UInt8 :=
  if limit = 0 then s.data.drop skip.toNat else (s.data.drop skip.toNat).take limit.toNat

/-- `inf` does not leave its chunk, writes what is wanted, every byte from its place in the inflated
data, and accepts a valid stream. -/
def Extracts : Prop :=
  ∃ ret dest, inf s.feeds limit skip = .ok (ret, dest) ∧
    dest = (s.wanted limit skip).zipIdx skip.toNat ∧
    (s.Valid → skip.toNat < s.data.length → ret = .ok)

/-- How the data have to be delivered. -/
structure Delivers : Prop where
  /-- The first portion has all that is skipped, and a byte behind it if there is one. -/
  first : ∀ p rest, s.portions = p :: rest →
    skip.toNat < p.out.length ∨ skip.toNat = p.out.length ∧ bytes rest = []
  /-- The limit does not cut the first portion before something is skipped. -/
  cut : ∀ p rest, s.portions = p :: rest → skip.toNat = 0 ∨ p.out.length ≤ room limit
  /-- Up to the limit a portion is empty only if it is the last one of a broken stream. -/
  later : ∀ p a q b, s.portions = p :: a ++ q :: b → q.out = [] →
    (bytes (p :: a)).length < skip.toNat + room limit → skip.toNat < s.data.length →
      bytes b = [] ∧ ¬s.Valid
  /-- Without a limit, the data can be counted. -/
  counted : limit = 0 → s.data.length ≤ skip.toNat + 2 ^ size.bits

/-- The state in front of the first call. -/
def start : State size :=
  { limit := limit, skip := skip, ret := .ok, out := fun _ => 0, totalOut := 0, dest := [] }

/-- `inf` is the run over the calls. -/
private theorem inf_eq : inf s.feeds limit skip = runCalls (start limit skip) (calls s.feeds) :=
  infLoop_eq s.feeds s.end_last _

variable {s limit skip}

/-- The extraction is right exactly if the bytes are the wanted ones and the return fits. -/
private theorem extracts_iff {ret : InfRet} {dest : List (UInt8 × Nat)}
    (h : runCalls (start limit skip) (calls s.feeds) = .ok (ret, dest)) :
    s.Extracts limit skip ↔ dest = (s.wanted limit skip).zipIdx skip.toNat ∧
      (s.Valid → skip.toNat < s.data.length → ret = .ok) := by
  rw [Extracts, inf_eq, h]
  constructor
  · rintro ⟨ret', dest', heq, hgood⟩
    cases heq
    exact hgood
  · exact fun hgood => ⟨ret, dest, rfl, hgood⟩

/-- Nothing is wanted of a stream that ends in the skipped part. -/
private theorem wanted_eq_nil_iff : s.wanted limit skip = [] ↔ s.data.length ≤ skip.toNat := by
  rw [wanted]
  split
  · exact List.drop_eq_nil_iff
  · next hne =>
    rw [List.take_eq_nil_iff, toNat_eq_zero_iff, or_iff_right hne, List.drop_eq_nil_iff]

/-- No portion comes in front of an error. -/
private theorem extracts_iff_of_portions_nil (ret : InfRet) (hnil : s.portions = [])
    (hvalid : ¬s.Valid) (h : runCalls (start limit skip) (calls s.feeds) = .ok (ret, [])) :
    s.Extracts limit skip ↔ s.Delivers limit skip := by
  have hdata : s.data = [] := by rw [data, hnil]; rfl
  -- without a portion there is nothing to extract
  have hwanted : s.wanted limit skip = [] := by
    rw [wanted_eq_nil_iff, hdata]
    exact Nat.zero_le _
  rw [extracts_iff h]
  refine ⟨fun _ => ⟨fun p rest hp => ?_, fun p rest hp => ?_, fun p a q b hp => ?_, fun _ => ?_⟩,
    fun _ => ⟨?_, fun hv => absurd hv hvalid⟩⟩
  · rw [hnil] at hp
    cases hp
  · rw [hnil] at hp
    cases hp
  · rw [hnil] at hp
    cases hp
  · rw [hdata]
    exact Nat.zero_le _
  · rw [hwanted, List.zipIdx_nil]

/-- The room behind the first portion that is written. -/
private theorem limit_start_wrote {p : Portion} (hskip : skip.toNat < min (room limit) p.out.length)
    :
    ((start limit skip).wrote p).limit.toNat =
    room limit - (min (room limit) p.out.length - skip.toNat) :=
  limit_wrote (start limit skip) p hskip

/-- The bytes of the first portion that is written. -/
private theorem dest_start_wrote (p : Portion) : ((start limit skip).wrote p).dest =
    ((p.out.drop skip.toNat).take (min (room limit) p.out.length - skip.toNat)).zipIdx
      skip.toNat := by
  rw [State.wrote]
  simp [start]

/-- The limit is below the chunk. -/
private theorem limit_ne_zero_of_room_le (limit : BitVec size.bits) {p : Portion}
    {ps : List Portion}
    (hcalls : calls s.feeds = p :: ps) (hle : room limit ≤ p.out.length) : limit ≠ 0 := by
  intro hzero
  have hlen := length_out_le p (by rw [hcalls]; exact List.mem_cons_self)
  have hchunk := chunk_lt size
  rw [room, if_pos hzero] at hle
  omega

section Cons

variable {p : Portion} {ps : List Portion} (hcalls : calls s.feeds = p :: ps)
  (hfailed : p.failed = false)

include hcalls hfailed

/-- The delivered portions of the stream, the first one in front. -/
private theorem portions_cons : s.portions = p :: delivered ps := by
  rw [portions, hcalls, delivered_cons ps hfailed]

/-- The data of the stream, those of the first portion in front. -/
private theorem data_cons : s.data = p.out ++ bytes (delivered ps) := by
  rw [data, portions_cons hcalls hfailed, bytes_cons]

/-- The stream is valid exactly if its portions end it. -/
private theorem valid_iff : s.Valid ↔ Ends p.ret ps := by
  have hafter : ∀ a q b, p :: ps = a ++ q :: b → q.ret = .streamEnd →
      ∀ r ∈ b, r.ret = .streamEnd := fun a q b heq hret r hr =>
    (s.after_end a q b (hcalls.trans heq) hret r hr).2
  rw [Valid, Ends, lastRet_eq_iff hafter, hcalls, List.forall_mem_cons, and_assoc]
  exact and_iff_right hfailed

/-- What `Delivers` says about the first portion. -/
private theorem delivers_cons : s.Delivers limit skip ↔
    (skip.toNat < p.out.length ∨ skip.toNat = p.out.length ∧ bytes (delivered ps) = []) ∧
      (skip.toNat = 0 ∨ p.out.length ≤ room limit) ∧
      (∀ a q b, delivered ps = a ++ q :: b → q.out = [] →
        p.out.length + (bytes a).length < skip.toNat + room limit →
          skip.toNat < s.data.length → bytes b = [] ∧ ¬s.Valid) ∧
      (limit = 0 → s.data.length ≤ skip.toNat + 2 ^ size.bits) := by
  have hportions := portions_cons hcalls hfailed
  constructor
  -- the conditions on any split of the calls are those on the first call and on the splits behind
  -- it
  · rintro ⟨hfirst, hcut, hlater, hcounted⟩
    refine ⟨hfirst _ _ hportions, hcut _ _ hportions, fun a q b heq hq hlen => ?_, hcounted⟩
    refine hlater p a q b (by rw [hportions, heq, List.cons_append]) hq ?_
    rwa [bytes_cons, List.length_append]
  · rintro ⟨hfirst, hcut, hlater, hcounted⟩
    refine ⟨fun p' rest heq => ?_, fun p' rest heq => ?_, fun p' a q b heq hq hlen => ?_, hcounted⟩
    · rw [hportions, List.cons.injEq] at heq
      rwa [← heq.1, ← heq.2]
    · rw [hportions, List.cons.injEq] at heq
      rwa [← heq.1]
    · rw [hportions, List.cons_append, List.cons.injEq] at heq
      rw [bytes_cons, List.length_append, ← heq.1] at hlen
      exact hlater a q b heq.2 hq hlen

/-- More is skipped than the first portion has. -/
private theorem not_extracts_of_fault (hskip : min (room limit) p.out.length < skip.toNat) :
    ¬s.Extracts limit skip := by
  have hlen := length_out_le p (by rw [hcalls]; exact List.mem_cons_self)
  have hturn := inflateTurn_fault (s := start limit skip) hfailed hlen hskip
  rintro ⟨ret, dest, heq, -⟩
  rw [inf_eq, hcalls, runCalls, hturn] at heq
  cases heq

/-- Nothing of the first portion is left to write. -/
private theorem extracts_iff_of_errno (hskip : skip.toNat = min (room limit) p.out.length) :
    s.Extracts limit skip ↔ s.data.length ≤ skip.toNat := by
  have hlen := length_out_le p (by rw [hcalls]; exact List.mem_cons_self)
  have hturn := inflateTurn_errno (s := start limit skip) hfailed hlen hskip
  -- the skip ends where the output does, so 0 bytes are written and the turn fails
  have hrun : runCalls (start limit skip) (calls s.feeds) = .ok (.errno, []) := by
    rw [hcalls, runCalls, hturn]
    rfl
  rw [extracts_iff hrun]
  constructor
  · rintro ⟨hdest, -⟩
    have hlength := congrArg List.length hdest
    rw [List.length_zipIdx, List.length_nil] at hlength
    exact wanted_eq_nil_iff.mp (List.length_eq_zero_iff.mp hlength.symm)
  · intro hle
    refine ⟨?_, fun _ hlt => absurd hlt (Nat.not_lt.mpr hle)⟩
    rw [wanted_eq_nil_iff.mpr hle, List.zipIdx_nil]

section Next

variable (hskip : skip.toNat < min (room limit) p.out.length)

include hskip

/-- The state behind the first portion. -/
private theorem runCalls_start : runCalls (start limit skip) (calls s.feeds) =
    if ((start limit skip).wrote p).limit = 0 then .ok (finish ((start limit skip).wrote p))
    else runCalls ((start limit skip).wrote p) ps := by
  have hlen := length_out_le p (by rw [hcalls]; exact List.mem_cons_self)
  rw [hcalls, runCalls, inflateTurn_next hfailed hlen hskip]
  rfl

/-- The limit is counted from the start of the portion, and the bytes behind it are left out. -/
private theorem not_extracts_of_cut (hpos : 0 < skip.toNat) (hcut : room limit < p.out.length) :
    ¬s.Extracts limit skip := by
  have hlimit := limit_start_wrote hskip
  have hne : ((start limit skip).wrote p).limit ≠ 0 := fun h => by
    rw [← toNat_eq_zero_iff] at h
    omega
  have hlen : ∀ q ∈ ps, q.out.length ≤ chunk := fun q hq =>
    length_out_le q (by rw [hcalls]; exact List.mem_cons_of_mem p hq)
  obtain ⟨ret, more, htail⟩ := runCalls_tail hlen ((start limit skip).wrote p) rfl hne
  have hrun := runCalls_start hcalls hfailed hskip
  rw [if_neg hne, htail.run_eq] at hrun
  rw [extracts_iff hrun, dest_start_wrote]
  rintro ⟨hdest, -⟩
  -- the byte in place `room limit` is wanted, but the portion leaves it out
  have hplace : ∀ x ∈ (s.wanted limit skip).zipIdx skip.toNat, x.2 ≠ room limit := by
    rw [← hdest]
    intro x hx
    rcases List.mem_append.mp hx with hx | hx
    · obtain ⟨hge, hlt⟩ := List.mk_mem_zipIdx_iff_le_and_getElem?_sub.mp hx
      have hlt := (List.getElem?_eq_some_iff.mp hlt).1
      rw [List.length_take] at hlt
      omega
    · have hge := htail.place_ge x hx
      have htotal : ((start limit skip).wrote p).totalOut = p.out.length := Nat.zero_add _
      omega
  -- a portion is shorter than the room of an absent limit, so there is one
  have hlimit0 := limit_ne_zero_of_room_le limit hcalls hcut.le
  have hroom := room_of_ne_zero hlimit0
  have hlt : room limit - skip.toNat < (s.wanted limit skip).length := by
    rw [wanted, if_neg hlimit0, List.length_take, List.length_drop, data_cons hcalls hfailed,
      List.length_append]
    omega
  refine hplace ((s.wanted limit skip)[room limit - skip.toNat], room limit) ?_ rfl
  rw [List.mk_mem_zipIdx_iff_le_and_getElem?_sub]
  exact ⟨by omega, List.getElem?_eq_getElem hlt⟩

/-- All is in the first portion. -/
private theorem extracts_of_full (hzero : skip.toNat = 0) (hle : room limit ≤ p.out.length) :
    s.Extracts limit skip := by
  have hlimit := limit_start_wrote hskip
  have hdone : ((start limit skip).wrote p).limit = 0 := (toNat_eq_zero_iff _).mp (by omega)
  have hrun := runCalls_start hcalls hfailed hskip
  rw [if_pos hdone, finish, if_pos hdone, dest_start_wrote] at hrun
  rw [extracts_iff hrun]
  refine ⟨?_, fun _ _ => rfl⟩
  have hne := limit_ne_zero_of_room_le limit hcalls hle
  rw [room_of_ne_zero hne] at hle ⊢
  rw [wanted, if_neg hne, data_cons hcalls hfailed, hzero, List.drop_zero, List.drop_zero,
    Nat.min_eq_left hle, Nat.sub_zero, List.take_append_of_le_length hle]

/-- What is wanted behind the first portion. -/
private theorem wanted_cons (hle : p.out.length ≤ room limit) : s.wanted limit skip =
    p.out.drop skip.toNat ++ if limit = 0 then bytes (delivered ps)
      else (bytes (delivered ps)).take (room limit - (p.out.length - skip.toNat)) := by
  rw [wanted, data_cons hcalls hfailed, List.drop_append_of_le_length (by omega)]
  split
  · rfl
  · next hne =>
    rw [room_of_ne_zero hne] at hle ⊢
    rw [List.take_append, List.take_of_length_le (by rw [List.length_drop]; omega),
      List.length_drop]

/-- The extraction where the first portion leaves room. -/
private theorem extracts_iff_of_more (hle : p.out.length ≤ room limit)
    (hlt : p.out.length < skip.toNat + room limit) : s.Extracts limit skip ↔
      NoGap s.Valid (room limit - (p.out.length - skip.toNat)) ps ∧
        (limit = 0 → s.data.length ≤ skip.toNat + 2 ^ size.bits) := by
  have hlimit := limit_start_wrote hskip
  rw [Nat.min_eq_right hle] at hlimit
  have hne : ((start limit skip).wrote p).limit ≠ 0 := fun h => by
    rw [← toNat_eq_zero_iff] at h
    omega
  have hlen : ∀ q ∈ ps, q.out.length ≤ chunk := fun q hq =>
    length_out_le q (by rw [hcalls]; exact List.mem_cons_of_mem p hq)
  obtain ⟨ret, more, htail⟩ := runCalls_tail hlen ((start limit skip).wrote p) rfl hne
  have hrun := runCalls_start hcalls hfailed hskip
  rw [if_neg hne, htail.run_eq] at hrun
  have htotal : ((start limit skip).wrote p).totalOut = p.out.length := Nat.zero_add _
  have hret : ((start limit skip).wrote p).ret = p.ret := rfl
  -- the calls behind the first one
  have hgood := htail.good_iff
  have hmore := htail.length_le
  rw [hlimit] at hmore
  rw [hlimit, htotal, hret, ← valid_iff hcalls hfailed] at hgood
  have hdata : s.data.length = p.out.length + (bytes (delivered ps)).length := by
    rw [data_cons hcalls hfailed, List.length_append]
  rw [← hgood, extracts_iff hrun, dest_start_wrote, Nat.min_eq_right hle,
    List.take_of_length_le (by rw [List.length_drop]), wanted_cons hcalls hfailed hskip hle,
    List.zipIdx_append, List.append_cancel_left_eq, List.length_drop,
    show skip.toNat + (p.out.length - skip.toNat) = p.out.length by omega]
  have hskipdata : skip.toNat < s.data.length := by omega
  -- without a limit the counter of `size_t` is one, and longer data would be cut there
  by_cases hzero : limit = 0
  · have hroom : room limit = 2 ^ size.bits := if_pos hzero
    rw [hroom] at hmore
    rw [if_pos hzero, hroom]
    constructor
    · rintro ⟨hdest, hok⟩
      have hlength := congrArg List.length hdest
      rw [List.length_zipIdx] at hlength
      have hcounted : s.data.length ≤ skip.toNat + 2 ^ size.bits := by omega
      refine ⟨⟨?_, fun hv => hok hv hskipdata⟩, fun _ => hcounted⟩
      rw [List.take_of_length_le (by omega)]
      exact hdest
    · rintro ⟨⟨hdest, hok⟩, hcounted⟩
      have hcounted := hcounted hzero
      rw [List.take_of_length_le (by omega)] at hdest
      exact ⟨hdest, fun hv _ => hok hv⟩
  · rw [if_neg hzero]
    simp only [hzero, false_imp_iff, and_true, hskipdata, true_imp_iff]

end Next

/-- The extraction of a stream with a portion. -/
private theorem extracts_iff_delivers_cons : s.Extracts limit skip ↔ s.Delivers limit skip := by
  have hdata : s.data.length = p.out.length + (bytes (delivered ps)).length := by
    rw [data_cons hcalls hfailed, List.length_append]
  have hroom := room_pos limit
  rw [delivers_cons hcalls hfailed]
  -- the skip ends inside what the first call may write, at its end, or behind it
  rcases Nat.lt_trichotomy skip.toNat (min (room limit) p.out.length) with hskip | hskip | hskip
  · rcases Nat.lt_or_ge p.out.length (skip.toNat + room limit) with hlt | hge
    · rcases Nat.lt_or_ge (room limit) p.out.length with hcut | hle
      · refine iff_of_false (not_extracts_of_cut hcalls hfailed hskip (by omega) hcut) ?_
        rintro ⟨-, hcut', -⟩
        omega
      · rw [extracts_iff_of_more hcalls hfailed hskip hle hlt, noGap_iff s.Valid (by omega)]
        constructor
        · rintro ⟨hgap, hcounted⟩
          exact ⟨.inl (by omega), .inr hle,
            fun a q b heq hq hlen _ => hgap a q b heq hq (by omega), hcounted⟩
        · rintro ⟨-, -, hlater, hcounted⟩
          exact ⟨fun a q b heq hq hlen => hlater a q b heq hq (by omega) (by omega), hcounted⟩
    · rcases Nat.eq_zero_or_pos skip.toNat with hzero | hpos
      · refine iff_of_true (extracts_of_full hcalls hfailed hskip hzero (by omega)) ?_
        have hne := limit_ne_zero_of_room_le limit hcalls (by omega)
        exact ⟨.inl (by omega), .inl hzero, fun a q b _ _ hlen => by omega,
          fun hlimit => absurd hlimit hne⟩
      · refine iff_of_false (not_extracts_of_cut hcalls hfailed hskip hpos (by omega)) ?_
        rintro ⟨-, hcut', -⟩
        omega
  · rw [extracts_iff_of_errno hcalls hfailed hskip]
    constructor
    · intro hle
      have hnil : bytes (delivered ps) = [] := List.length_eq_zero_iff.mp (by omega)
      exact ⟨.inr ⟨by omega, hnil⟩, .inr (by omega), fun a q b _ _ _ hlt => by omega,
        fun _ => by omega⟩
    · rintro ⟨hfirst, hcut, -⟩
      rcases hfirst with hlt | ⟨heq, hnil⟩
      · omega
      · rw [hdata, hnil, heq, List.length_nil]
        exact le_rfl
  · refine iff_of_false (not_extracts_of_fault hcalls hfailed hskip) ?_
    rintro ⟨hfirst, hcut, -⟩
    omega

end Cons

/-- The extraction of any stream. -/
theorem extracts_iff_of_stream : s.Extracts limit skip ↔ s.Delivers limit skip := by
  cases hcalls : calls s.feeds with
  | nil =>
    refine extracts_iff_of_portions_nil (finish (start limit skip)).1
      (by rw [portions, hcalls]; rfl) ?_ (by rw [hcalls]; rfl)
    rintro ⟨-, p, hp, -⟩
    rw [hcalls] at hp
    cases hp
  | cons p ps =>
    cases hfailed : p.failed with
    | true =>
      obtain ⟨ret, hturn, -⟩ := inflateTurn_failed (s := start limit skip) hfailed
      refine extracts_iff_of_portions_nil ret
        (by rw [portions, hcalls, delivered_cons_failed ps hfailed]) ?_ (by rw [hcalls, runCalls, hturn]; rfl)
      -- a stream whose first call fails is not valid
      rintro ⟨hall, -⟩
      rw [hall p (by rw [hcalls]; exact List.mem_cons_self)] at hfailed
      cases hfailed
    | false => exact extracts_iff_delivers_cons hcalls hfailed

/-- `inf` extracts what is wanted exactly if the stream is delivered in the right portions. -/
theorem extracts_iff_delivers (size : SizeT) (s : Stream) (limit skip : BitVec size.bits) :
    s.Extracts limit skip ↔ s.Delivers limit skip :=
  extracts_iff_of_stream

private theorem size64_bits_ge : 16 ≤ 64 := by decide

def size64 : SizeT := ⟨64, size64_bits_ge⟩

private theorem shortFeed_fulls : ∀ p ∈ ([] : List Portion), p.out.length = chunk := by
  simp

private theorem shortFeed_last : (List.replicate 20 (0 : UInt8)).length < chunk := by
  decide

/-- 20 bytes. -/
def shortFeed : Feed :=
  ⟨[], ⟨List.replicate 20 0, .streamEnd⟩, shortFeed_fulls, shortFeed_last⟩

/-- Nothing follows the end of the stream of the examples. -/
private theorem shortStream_after_end (a : List Portion) (p : Portion) (b : List Portion)
    (h : calls [shortFeed] = a ++ p :: b) (_ : p.ret = .streamEnd) :
    ∀ q ∈ b, q.out = [] ∧ q.ret = .streamEnd := by
  have hlen := congrArg List.length h
  rw [List.length_append, List.length_cons] at hlen
  have hone : (calls [shortFeed]).length = 1 := rfl
  have hnil : b = [] := List.length_eq_zero_iff.mp (by omega)
  simp [hnil]

/-- Its end is in the last input. -/
private theorem shortStream_end_last (a : List Feed) (f : Feed) (b : List Feed)
    (h : [shortFeed] = a ++ f :: b) (_ : f.last.ret = .streamEnd) : b = [] := by
  have hlen := congrArg List.length h
  rw [List.length_append, List.length_singleton, List.length_cons] at hlen
  exact List.length_eq_zero_iff.mp (by omega)

def shortStream : Stream := ⟨[shortFeed], shortStream_after_end, shortStream_end_last⟩

/-- Of the 10 bytes behind the first 4 only 6 are written. -/
theorem shortStream_not_extracts : ¬shortStream.Extracts (10 : BitVec size64.bits) 4 := by
  rw [extracts_iff_of_stream]
  rintro ⟨-, hcut, -⟩
  have hportions : shortStream.portions = [shortFeed.last] := rfl
  rcases hcut _ _ hportions with hskip | hle
  · exact absurd hskip (by decide)
  · exact absurd hle (by decide)

end Stream

end HandsomeMod.Native.FritzCal
