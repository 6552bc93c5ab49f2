import HandsomeMod.Native.Ead
import HandsomeMod.ForStd.Run

/-!
# Authentication in the emergency access daemon

No order of packets makes the daemon run a command for a client that has not proved, since the last
user name it gave, that it knows the password of that user.
-/

namespace HandsomeMod.Native.Ead

open ForStd

/-! ### Reading the log -/

def Event.isSetUsername : Event → Bool
  | .setUsername _ => true
  | _ => false

def Event.isExec : Event → Bool
  | .exec _ _ => true
  | _ => false

/-- The key that an event installs. -/
def Event.installs : Event → Option (List UInt8)
  | .setKey skey => some skey
  | _ => none

/-- The events since the last user name. -/
def sinceUsername (log : List Event) : List Event := log.takeWhile fun e => !e.isSetUsername

/-- The key installed last. -/
def installedKey (log : List Event) : Option (List UInt8) := log.findSome? Event.installs

/-- Since the last user name, which is `name`, the session `id` was opened for it, gave the key
    that is installed, and verified the client. -/
structure Authenticated (log : List Event) (id : Nat) (name skey : List UInt8) : Prop where
  username : log.find? Event.isSetUsername = some (.setUsername name)
  opened : .opened id name ∈ sinceUsername log
  gotKey : .gotKey id skey ∈ sinceUsername log
  installed : installedKey log = some skey
  verified : .verified id ∈ sinceUsername log

/-- Every command was run for an authenticated client. -/
def ExecsOk (log : List Event) : Prop :=
  ∀ later past command background, log = later ++ .exec command background :: past →
    ∃ id name skey, Authenticated past id name skey

/-- One more event, which needs an authentication if it runs a command. -/
theorem ExecsOk.cons {log : List Event} (h : ExecsOk log) {e : Event}
    (he : e.isExec = true → ∃ id name skey, Authenticated log id name skey) :
    ExecsOk (e :: log) := by
  intro later past command background heq
  cases later with
  | nil =>
    obtain ⟨rfl, rfl⟩ := List.cons.inj heq
    exact he rfl
  | cons e' later => exact h later past command background (List.cons.inj heq).2

/-! ### The invariant -/

/-- The session `t` is open for the last user name. -/
structure Live (s : Server) (t : Session) : Prop where
  ts : s.ts = some t
  account : s.account ≠ none
  username : s.log.find? Event.isSetUsername = some (.setUsername t.name)
  opened : .opened t.id t.name ∈ sinceUsername s.log

/-- `B` points to the exponential of the session. -/
def HasExp (s : Server) (t : Session) : Prop := s.B = some t.id ∧ t.exp ≠ none

/-- The key of the session is installed. -/
def HasKey (s : Server) (t : Session) (skey : List UInt8) : Prop :=
  .gotKey t.id skey ∈ sinceUsername s.log ∧ installedKey s.log = some skey

/-- What holds in each state. -/
def StateInv (s : Server) : EadType → Prop
  | .setUsername => True
  | .getPrime => ∃ t, Live s t
  | .sendA => ∃ t, Live s t ∧ HasExp s t
  | .sendAuth => ∃ t skey, Live s t ∧ HasExp s t ∧ HasKey s t skey
  | .sendCmd => ∃ t skey, Live s t ∧ HasExp s t ∧ HasKey s t skey ∧
      .verified t.id ∈ sinceUsername s.log
  | _ => False

structure Inv (s : Server) : Prop where
  state : StateInv s s.state
  execs : ExecsOk s.log

/-- The two servers agree on what `StateInv` looks at, but for events in between. -/
structure SameSession (s s' : Server) : Prop where
  state : s'.state = s.state
  ts : s'.ts = s.ts
  account : s'.account = s.account
  B : s'.B = s.B
  name : s'.username = s.username
  username : s'.log.find? Event.isSetUsername = s.log.find? Event.isSetUsername
  since : sinceUsername s.log ⊆ sinceUsername s'.log
  installed : installedKey s'.log = installedKey s.log

/-- Neither an event that leaves user name and key alone nor a new IV changes the session. -/
theorem SameSession.emit (s : Server) {e : Event} (hname : e.isSetUsername = false)
    (hinst : e.installs = none) : SameSession s (s.emit e) where
  state := rfl
  ts := rfl
  account := rfl
  B := rfl
  name := rfl
  username := by simp [Server.emit, hname]
  since := by simp [Server.emit, sinceUsername, hname]
  installed := by simp [Server.emit, installedKey, hinst]

/-- The encryption state is not part of the session. -/
theorem SameSession.crypt (s : Server) (c : Crypt) : SameSession s { s with crypt := c } :=
  ⟨rfl, rfl, rfl, rfl, rfl, rfl, List.Subset.refl _, rfl⟩

/-- A live session is seen in the fields of the session. -/
theorem Live.same {s s' : Server} (hsame : SameSession s s') {t : Session} (h : Live s t) :
    Live s' t :=
  ⟨hsame.ts.trans h.ts, hsame.account ▸ h.account, hsame.username.trans h.username,
    hsame.since h.opened⟩

/-- The exponent is seen in the fields of the session. -/
theorem HasExp.same {s s' : Server} (hsame : SameSession s s') {t : Session} (h : HasExp s t) :
    HasExp s' t :=
  ⟨hsame.B.trans h.1, h.2⟩

/-- The key is seen in the fields of the session. -/
theorem HasKey.same {s s' : Server} (hsame : SameSession s s') {t : Session} {skey : List UInt8}
    (h : HasKey s t skey) : HasKey s' t skey :=
  ⟨hsame.since h.1, hsame.installed.trans h.2⟩

/-- What a state promises is seen in the fields of the session. -/
theorem StateInv.same {s s' : Server} (hsame : SameSession s s') {st : EadType}
    (h : StateInv s st) : StateInv s' st := by
  cases st with
  | setUsername => trivial
  | getPrime =>
    obtain ⟨t, ht⟩ := h
    exact ⟨t, ht.same hsame⟩
  | sendA =>
    obtain ⟨t, ht, hx⟩ := h
    exact ⟨t, ht.same hsame, hx.same hsame⟩
  | sendAuth =>
    obtain ⟨t, skey, ht, hx, hk⟩ := h
    exact ⟨t, skey, ht.same hsame, hx.same hsame, hk.same hsame⟩
  | sendCmd =>
    obtain ⟨t, skey, ht, hx, hk, hv⟩ := h
    exact ⟨t, skey, ht.same hsame, hx.same hsame, hk.same hsame, hsame.since hv⟩
  | _ => exact h.elim

/-- The invariant after an event that is neither a user name nor a key nor a command. -/
theorem Inv.emit {s : Server} (h : Inv s) {e : Event} (hname : e.isSetUsername = false)
    (hinst : e.installs = none) (hexec : e.isExec = false) : Inv (s.emit e) :=
  ⟨h.state.same (SameSession.emit s hname hinst),
    h.execs.cons fun htrue => by rw [hexec] at htrue; cases htrue⟩

/-- A change of the encryption state keeps the invariant. -/
theorem Inv.crypt {s : Server} (h : Inv s) (c : Crypt) : Inv { s with crypt := c } :=
  ⟨h.state.same (SameSession.crypt s c), h.execs⟩

/-! ### `set_state` -/

/-- No fault but a wild copy, and the invariant afterwards. -/
def Good : Except Fault Server → Prop
  | .ok s => Inv s
  | .error f => f = .wildCopy

/-- What a handler has prepared when it asks for the state `nstate`. -/
inductive Due (s : Server) : EadType → Prop where
  | stay (h : StateInv s s.state) : Due s s.state
  | drop (h : StateInv s .sendAuth) (hs : s.state = .sendAuth) : Due s .setUsername
  | username (h : s.log.find? Event.isSetUsername = some (.setUsername s.username))
      (hs : s.state = .setUsername) : Due s .getPrime
  | exp (h : StateInv s .getPrime) (hs : s.state = .getPrime) : Due s .sendA
  | key (h : StateInv s .sendA) (hs : s.state = .sendA) : Due s .sendAuth
  | verified {t : Session} (h : StateInv s .sendAuth) (hs : s.state = .sendAuth)
      (ht : s.ts = some t) (hv : .verified t.id ∈ sinceUsername s.log) : Due s .sendCmd

/-- Outside the initial state a session is open. -/
theorem StateInv.live {s : Server} {st : EadType} (h : StateInv s st) :
    st = .setUsername ∨ ∃ t, Live s t := by
  cases st with
  | setUsername => exact Or.inl rfl
  | getPrime => exact Or.inr h
  | sendA =>
    obtain ⟨t, ht, -⟩ := h
    exact Or.inr ⟨t, ht⟩
  | sendAuth =>
    obtain ⟨t, -, ht, -⟩ := h
    exact Or.inr ⟨t, ht⟩
  | sendCmd =>
    obtain ⟨t, -, ht, -⟩ := h
    exact Or.inr ⟨t, ht⟩
  | _ => exact h.elim

/-- Outside the initial state the state is at least `GET_PRIME`. -/
theorem StateInv.getPrime_le {s : Server} {st : EadType} (h : StateInv s st)
    (hne : st ≠ .setUsername) : EadType.getPrime.code ≤ st.code := by
  cases st with
  | setUsername => exact absurd rfl hne
  | ping => exact h.elim
  | pong => exact h.elim
  | ackUsername => exact h.elim
  | _ => decide

/-- Closing the session leaves nothing to check in the initial state. -/
private theorem setState_setUsername (cfg : Config) (o : Oracle) {s : Server} (h : Inv s) :
    ∃ s', setState cfg o .setUsername s = .ok s' ∧ Inv s' ∧ s'.state = .setUsername ∧
      s'.log = s.log := by
  by_cases hinit : s.state = .setUsername
  · exact ⟨s, by rw [setState, if_pos hinit], h, hinit, rfl⟩
  · obtain heq | ⟨t, ht⟩ := h.state.live
    · exact absurd heq hinit
    · have hle := h.state.getPrime_le hinit
      have hlt : EadType.setUsername.code < s.state.code := Nat.lt_of_lt_of_le (by decide) hle
      refine ⟨{ s with ts := none, state := .setUsername }, ?_, ⟨trivial, h.execs⟩, rfl, rfl⟩
      rw [setState, if_neg hinit, if_pos hlt, if_pos ⟨by decide, hle⟩, ht.ts]

/-- Entering GET_PRIME behind a user name opens a session, or fails. -/
private theorem setState_getPrime (cfg : Config) (o : Oracle) {s : Server} (hexecs : ExecsOk s.log)
    (hname : s.log.find? Event.isSetUsername = some (.setUsername s.username))
    (hs : s.state = .setUsername) : Good (setState cfg o .getPrime s) := by
  rw [setState, hs, if_neg (by decide), if_neg (by decide)]
  simp only [openSession]
  -- an unknown user or a failed open leaves the state
  have hkeep : ∀ a ts, Inv { s with account := a, ts := ts } := by
    intro a ts
    exact ⟨by rw [hs]; trivial, hexecs⟩
  split
  · exact ⟨by rw [hs]; trivial, hexecs⟩
  · split
    · refine ⟨⟨_, rfl, Option.some_ne_none _, ?_, ?_⟩, hexecs.cons fun htrue => by cases htrue⟩
      · exact hname
      · exact List.mem_cons_self ..
    · exact hkeep _ _

/-- Entering SEND_A makes the exponent of the session. -/
private theorem setState_sendA (cfg : Config) (o : Oracle) {s : Server} (h : Inv s)
    (hs : s.state = .getPrime) : Good (setState cfg o .sendA s) := by
  have hstate := h.state
  rw [hs] at hstate
  obtain ⟨t, ht⟩ := hstate
  rw [setState, hs, if_neg (by decide), if_neg (by decide)]
  simp only [genExp, ht.ts]
  exact ⟨⟨_, ⟨rfl, ht.account, ht.username, ht.opened⟩, rfl, Option.some_ne_none _⟩, h.execs⟩

/-- Entering SEND_AUTH computes the key of the session, or fails. -/
private theorem setState_sendAuth (cfg : Config) (o : Oracle) {s : Server} (h : Inv s)
    (hs : s.state = .sendA) : Good (setState cfg o .sendAuth s) := by
  have hstate := h.state
  rw [hs] at hstate
  obtain ⟨t, ht, hx⟩ := hstate
  rw [setState, hs, if_neg (by decide), if_neg (by decide)]
  simp only [getKey, ht.ts]
  split
  · exact h
  -- the key joins the session that was opened
  · rename_i skey hkey
    refine ⟨⟨{ t with key := some skey }, skey, ⟨rfl, ht.account, ht.username, ?_⟩, hx, ?_, rfl⟩,
      (h.execs.cons fun htrue => by cases htrue).cons fun htrue => by cases htrue⟩
    · exact List.mem_cons_of_mem _ (List.mem_cons_of_mem _ ht.opened)
    · exact List.mem_cons_of_mem _ (List.mem_cons_self ..)

/-- Entering SEND_CMD behind a verified response keeps the invariant. -/
private theorem setState_sendCmd (cfg : Config) (o : Oracle) {s : Server} {t : Session} (h : Inv s)
    (hs : s.state = .sendAuth) (hts : s.ts = some t)
    (hv : .verified t.id ∈ sinceUsername s.log) : Good (setState cfg o .sendCmd s) := by
  have hstate := h.state
  rw [hs] at hstate
  obtain ⟨t', skey, ht, hx, hk⟩ := hstate
  obtain rfl := Option.some.inj (ht.ts.symm.trans hts)
  rw [setState, hs, if_neg (by decide), if_neg (by decide)]
  exact ⟨⟨t', skey, ⟨ht.ts, ht.account, ht.username, ht.opened⟩, hx, hk, hv⟩, h.execs⟩

/-- A request for a state that is due leads to it, or to the present one, and keeps `Inv`. -/
private theorem setState_due (cfg : Config) (o : Oracle) {s : Server} {nstate : EadType}
    (hexecs : ExecsOk s.log) (h : Due s nstate) : Good (setState cfg o nstate s) := by
  cases h with
  | stay h =>
    rw [setState, if_pos rfl]
    exact ⟨h, hexecs⟩
  | drop h hs =>
    obtain ⟨s', heq, hinv, -⟩ := setState_setUsername cfg o ⟨by rw [hs]; exact h, hexecs⟩
    rw [heq]
    exact hinv
  | username h hs => exact setState_getPrime cfg o hexecs h hs
  | exp h hs => exact setState_sendA cfg o ⟨by rw [hs]; exact h, hexecs⟩ hs
  | key h hs => exact setState_sendAuth cfg o ⟨by rw [hs]; exact h, hexecs⟩ hs
  | verified h hs ht hv => exact setState_sendCmd cfg o ⟨by rw [hs]; exact h, hexecs⟩ hs ht hv

/-- What a new state needs is seen in the fields of the session. -/
theorem Due.same {s s' : Server} (hsame : SameSession s s') {nstate : EadType}
    (h : Due s nstate) : Due s' nstate := by
  have hstate := hsame.state
  cases h with
  | stay h =>
    rw [← hstate]
    exact .stay (by rw [hstate]; exact h.same hsame)
  | drop h hs => exact .drop (h.same hsame) (hstate.trans hs)
  | username h hs => exact .username (by rw [hsame.username, hsame.name, h]) (hstate.trans hs)
  | exp h hs => exact .exp (h.same hsame) (hstate.trans hs)
  | key h hs => exact .key (h.same hsame) (hstate.trans hs)
  | verified h hs ht hv =>
    exact .verified (h.same hsame) (hstate.trans hs) (hsame.ts.trans ht) (hsame.since hv)

/-! ### The handlers -/

/-- No fault but a wild copy; afterwards the state that is asked for is due. -/
def HandledOk : Except Fault Handled → Prop
  | .ok h => ExecsOk h.server.log ∧ Due h.server h.nstate
  | .error f => f = .wildCopy

/-- A packet that changes nothing is handled. -/
theorem HandledOk.stay {s : Server} (h : Inv s) (response : Option Response) :
    HandledOk (.ok ⟨s, response, s.state⟩) :=
  ⟨h.execs, .stay h.state⟩

/-- SET_USERNAME does what the protocol allows. -/
private theorem handleSetUsername_ok (cfg : Config) (o : Oracle) (pkt : Packet) {s : Server}
    (h : Inv s) :
    HandledOk (handleSetUsername cfg o pkt s) := by
  obtain ⟨s', heq, hinv, hs, hlog⟩ := setState_setUsername cfg o h
  rw [handleSetUsername, heq]
  exact ⟨hinv.execs.cons fun htrue => (by cases htrue), .username rfl hs⟩

/-- GET_PRIME does what the protocol allows. -/
private theorem handleGetPrime_ok {s : Server} (h : Inv s) (hs : s.state = .getPrime) :
    HandledOk (handleGetPrime s) := by
  have hstate := h.state
  rw [hs] at hstate
  obtain ⟨t, ht⟩ := hstate
  obtain ⟨account, ha⟩ := Option.ne_none_iff_exists'.mp ht.account
  simp only [handleGetPrime, ha, ht.ts]
  exact ⟨h.execs, .exp ⟨t, ht⟩ hs⟩

/-- SEND_A does what the protocol allows. -/
private theorem handleSendA_ok (pkt : Packet) {s : Server} (h : Inv s) (hs : s.state = .sendA) :
    HandledOk (handleSendA pkt s) := by
  have hstate := h.state
  rw [hs] at hstate
  obtain ⟨t, ht, hx⟩ := hstate
  simp only [handleSendA]
  split
  · exact HandledOk.stay h none
  · split
    · rfl
    · obtain ⟨exp, hexp⟩ := Option.ne_none_iff_exists'.mp hx.2
      simp only [readExp, hx.1, ht.ts, hexp, ↓reduceIte]
      exact ⟨h.execs, .key ⟨t, ⟨rfl, ht.account, ht.username, ht.opened⟩, rfl, hx.2⟩ hs⟩

/-- SEND_AUTH does what the protocol allows. -/
private theorem handleSendAuth_ok (o : Oracle) {s : Server} (h : Inv s) (hs : s.state = .sendAuth) :
    HandledOk (handleSendAuth o s) := by
  have hstate := h.state
  rw [hs] at hstate
  have hauth := hstate
  obtain ⟨t, skey, ht, -⟩ := hauth
  simp only [handleSendAuth, ht.ts]
  split
  · have hsame := SameSession.emit s (e := .verified t.id) rfl rfl
    exact ⟨h.execs.cons fun htrue => (by cases htrue),
      .verified (hstate.same hsame) hs ht.ts (List.mem_cons_self ..)⟩
  · exact ⟨h.execs, .drop hstate hs⟩

/-- Sending the output of a command keeps the invariant. -/
theorem Inv.streamOutput (cfg : Config) (o : Oracle) (pkt : Packet) (i : Nat)
    (rounds : List (List UInt8)) {s : Server} (h : Inv s) :
    Inv (streamOutput cfg o pkt i rounds s) := by
  induction rounds generalizing i s with
  | nil => exact h
  | cons bytes rounds ih => exact ih _ ((h.crypt _).emit rfl rfl rfl)

/-- The end of a command does what the protocol allows. -/
private theorem finishCmd_ok (cfg : Config) (o : Oracle) (i : Nat) {s : Server} (h : Inv s) :
    HandledOk (.ok (finishCmd cfg o i s)) :=
  HandledOk.stay (h.crypt _) _

/-- In the state `SEND_CMD` the client is authenticated. -/
theorem Inv.authenticated {s : Server} (h : Inv s) (hs : s.state = .sendCmd) :
    ∃ id name skey, Authenticated s.log id name skey := by
  have hstate := h.state
  rw [hs] at hstate
  obtain ⟨t, skey, ht, -, hk, hv⟩ := hstate
  exact ⟨t.id, t.name, skey, ht.username, ht.opened, hk.1, hk.2, hv⟩

/-- Running a command in SEND_CMD keeps the invariant: the session is authenticated. -/
theorem Inv.exec {s : Server} (h : Inv s) (hs : s.state = .sendCmd) (command : List UInt8)
    (background : Bool) : Inv (s.emit (.exec command background)) :=
  ⟨h.state.same (SameSession.emit s rfl rfl), h.execs.cons fun _ => h.authenticated hs⟩

/-- A command that was decrypted does what the protocol allows. -/
private theorem runCmd_ok (cfg : Config) (o : Oracle) (pkt : Packet) (enc : List UInt8)
    (datalen : Nat)
    {s : Server} (h : Inv s) (hs : s.state = .sendCmd) :
    HandledOk (.ok (runCmd cfg o pkt enc datalen s)) := by
  simp only [runCmd]
  split
  · split
    -- the output is sent while the session stays
    · have hrun := (h.exec hs (cString ((enc.drop 28).take datalen)) false).streamOutput
        cfg o pkt 0 o.output
      split
      · exact HandledOk.stay hrun none
      · exact finishCmd_ok cfg o _ hrun
    · exact HandledOk.stay h none
  · split
    · exact finishCmd_ok cfg o 0 (h.exec hs _ true)
    · exact HandledOk.stay h none
  · exact HandledOk.stay h none

/-- SEND_CMD does what the protocol allows. -/
private theorem handleSendCmd_ok (cfg : Config) (o : Oracle) (pkt : Packet) {s : Server} (h : Inv s)
    (hs : s.state = .sendCmd) : HandledOk (handleSendCmd cfg o pkt s) := by
  -- whatever the length is, a command only runs in the session
  have hrun : ∀ (datalen : Int) enc (s1 : Server), Inv s1 → s1.state = .sendCmd →
      HandledOk (if datalen ≤ 0 then .ok ⟨s1, none, s1.state⟩
        else .ok (runCmd cfg o pkt enc datalen.toNat s1)) := by
    intro datalen enc s1 hinv hstate
    split
    · exact HandledOk.stay hinv none
    · exact runCmd_ok cfg o pkt enc _ hinv hstate
  simp only [handleSendCmd]
  generalize eadDecryptMessage cfg.prims s.crypt pkt.len pkt.data = r
  apply hrun
  · split
    · exact (h.crypt r.1).emit rfl rfl rfl
    · exact h.crypt r.1
  · split <;> exact hs

/-! ### `parse_message` -/

/-- Every handler does what the protocol allows in the state that it needs. -/
private theorem handle_ok (cfg : Config) (o : Oracle) (pkt : Packet) {type : EadType} {s : Server}
    (h : Inv s) (hstate : EadType.getPrime.code ≤ type.code → s.state = type) :
    HandledOk (handle cfg o pkt type s) := by
  cases type with
  | setUsername => exact handleSetUsername_ok cfg o pkt h
  | getPrime => exact handleGetPrime_ok h (hstate (by decide))
  | sendA => exact handleSendA_ok pkt h (hstate (by decide))
  | sendAuth => exact handleSendAuth_ok o h (hstate (by decide))
  | sendCmd => exact handleSendCmd_ok cfg o pkt h (hstate (by decide))
  | _ => exact HandledOk.stay h _

/-- One packet: no fault but a wild copy, and the invariant afterwards. -/
theorem parseMessage_good (cfg : Config) (o : Oracle) (pkt : Packet) {s : Server} (h : Inv s) :
    Good (parseMessage cfg o pkt s) := by
  have hinv : Inv (s.emit (.packet pkt.type)) := h.emit rfl rfl rfl
  simp only [parseMessage]
  generalize s.emit (.packet pkt.type) = s at hinv
  split
  · exact hinv
  · rename_i type hreq
    split
    · exact hinv
    · rename_i htype
      split
      · exact hinv
      · split
        · exact hinv
        -- a request of the handshake passes only in the state that waits for it
        · have hok := handle_ok cfg o pkt hinv fun hle => by
            by_contra hne
            exact htype ⟨hle, hne⟩
          cases hr : handle cfg o pkt type s with
          | error f =>
            rw [hr] at hok
            exact hok
          | ok r =>
            rw [hr] at hok
            obtain ⟨hexecs, hdue⟩ := hok
            simp only [bind, Except.bind, Handled.send]
            split
            · exact setState_due cfg o (hexecs.cons fun htrue => by cases htrue)
                (hdue.same (SameSession.emit _ rfl rfl))
            · exact setState_due cfg o hexecs hdue

/-- The daemon handles some packet, whatever the oracle answers. -/
def Step (cfg : Config) (s s' : Server) : Prop :=
  ∃ o pkt, parseMessage cfg o pkt s = .ok s'

/-- Every reachable state meets the invariant. -/
theorem inv_of_reachable {cfg : Config} {s : Server}
    (h : Reachable (· = initServer) (Step cfg) s) : Inv s := by
  refine h.invariant ?_ ?_
  · rintro s rfl
    exact ⟨trivial, fun later past command background heq => by
      rw [initServer] at heq
      exact absurd heq.symm (by simp)⟩
  · intro s s' hinv hstep
    obtain ⟨o, pkt, heq⟩ := hstep
    have hgood := parseMessage_good cfg o pkt hinv
    rw [heq] at hgood
    exact hgood

/-- In every state that packets lead to: whoever had a command run was authenticated since the last
    user name that was not discarded; a session is open from `GET_PRIME` on; and no further packet
    makes the daemon use a session, a prime or an exponential that is not there. -/
theorem parseMessage_authenticated (cfg : Config) {s : Server}
    (h : Reachable (· = initServer) (Step cfg) s) :
    (∀ later past command background, s.log = later ++ .exec command background :: past →
      ∃ id name skey, Authenticated past id name skey) ∧
    (EadType.getPrime.code ≤ s.state.code → s.ts ≠ none) ∧
    ∀ o pkt f, parseMessage cfg o pkt s = .error f → f = .wildCopy := by
  have hinv := inv_of_reachable h
  refine ⟨hinv.execs, fun hle => ?_, fun o pkt f heq => ?_⟩
  · obtain hinit | ⟨t, ht⟩ := hinv.state.live
    · rw [hinit] at hle
      exact absurd hle (by decide)
    · rw [ht.ts]
      exact Option.some_ne_none t
  · have hgood := parseMessage_good cfg o pkt hinv
    rw [heq] at hgood
    exact hgood

/-! ### A session -/

/-- Packets one after the other. -/
def run (cfg : Config) : List (Oracle × Packet) → Server → Except Fault Server
  | [], s => .ok s
  | (o, pkt) :: rest, s => do
    let s ← parseMessage cfg o pkt s
    run cfg rest s

/-- The states of a run are reachable. -/
theorem reachable_of_run {cfg : Config} {inputs : List (Oracle × Packet)} {s s' : Server}
    (h : Reachable (· = initServer) (Step cfg) s) (hrun : run cfg inputs s = .ok s') :
    Reachable (· = initServer) (Step cfg) s' := by
  induction inputs generalizing s with
  | nil =>
    cases hrun
    exact h
  -- a message is one step
  | cons input rest ih =>
    simp only [run] at hrun
    cases hpkt : parseMessage cfg input.1 input.2 s with
    | error f =>
      rw [hpkt] at hrun
      cases hrun
    | ok s1 =>
      rw [hpkt] at hrun
      exact ih (h.next ⟨input.1, input.2, hpkt⟩) hrun

/-- A cipher that flips the bits of the first key byte, and a hash of 20 bytes of the message. -/
def toyPrims : Prims where
  endian := .little
  rijndaelEncrypt k b := b.map (· ^^^ k.headD 0)
  rijndaelDecrypt k b := b.map (· ^^^ k.headD 0)
  sha m := (m.drop 20 ++ List.replicate 20 0).take 20
  length_rijndaelEncrypt k b h := by rw [List.length_map, h]
  length_rijndaelDecrypt k b h := by rw [List.length_map, h]
  decrypt_encrypt k b _ := by
    have hxor : ∀ x y : UInt8, x ^^^ y ^^^ y = x := fun x y => by
      rw [UInt8.xor_assoc, UInt8.xor_self, UInt8.xor_zero]
    simp [List.map_map, Function.comp_def, hxor]
  length_sha m := by simp

def toyConfig : Config := { prims := toyPrims, instanceId := 0, nid := 0x1337, devName := [] }

/-- Every call succeeds, the client gives the right proof, and the command does not return. -/
def toyOracle : Oracle where
  preparePassword _ := some { index := 1, salt := [], pwSalt := [] }
  openOk := true
  servergenexp := [7]
  servergetkey := some (List.replicate 40 1)
  serververify := true
  serverresponse := []
  pipeOk := true
  forkOk := true
  output := []
  timedOut := true
  fill := fun _ _ => 0

def toyPacket (type : UInt32) (data : List UInt8) : Packet :=
  { wireLen := UInt32.ofNat (sizeofPacket + data.length), etherType := 0x0800
    etherDhost := List.replicate 6 0xff, proto := 17, destport := eadPort, magic := eadMagic
    len := UInt32.ofNat data.length, type := type, nid := 0xffff, sid := 0, data := data }

/-- The command `ls` as the client encrypts it first. -/
def toyCommand : List UInt8 :=
  (eadEncryptMessage toyPrims (eadSetKey toyPrims (List.replicate 40 1) initServer.crypt)
    [0, 0, 10, 108, 115, 0] fun _ => 0).2

/-- The client authenticates as `ro`, an empty packet of type `SET_USERNAME` is discarded, and the
    client sends its command. -/
def toyInputs : List (Oracle × Packet) :=
  [toyPacket 2 (114 :: 111 :: List.replicate 30 0), toyPacket 4 [], toyPacket 6 [0, 5],
    toyPacket 8 (List.replicate 20 0), toyPacket 2 [], toyPacket 10 toyCommand].map
      fun pkt => (toyOracle, pkt)

def Event.isUsernamePacket : Event → Bool
  | .packet type => type == 2
  | _ => false

/-- The packets of the examples lead to a command. -/
private theorem toyInputs_run : ∃ s past, run toyConfig toyInputs initServer = .ok s ∧
    s.log = .exec [108, 115] false :: past ∧
      past.takeWhile (fun e => !e.isUsernamePacket) = [.accepted toyCommand, .packet 10] :=
  ⟨_, _, rfl, rfl, rfl⟩

/-- The discarded packet does not end the session: nobody was verified since. -/
theorem toyInputs_not_verified :
    ∃ s, Reachable (· = initServer) (Step toyConfig) s ∧
      ∃ later past command background, s.log = later ++ .exec command background :: past ∧
        ∀ id, .verified id ∉ past.takeWhile fun e => !e.isUsernamePacket := by
  obtain ⟨s, past, hrun, hlog, hsince⟩ := toyInputs_run
  refine ⟨s, reachable_of_run (.start rfl) hrun, [], past, _, _, hlog, fun id => ?_⟩
  rw [hsince]
  simp

/-- The command of the examples runs behind an authentication. -/
theorem parseMessage_authenticated_toyInputs :
    ∃ s past, run toyConfig toyInputs initServer = .ok s ∧
      s.log = .exec [108, 115] false :: past ∧
      ∃ id name skey, Authenticated past id name skey := by
  obtain ⟨s, past, hrun, hlog, -⟩ := toyInputs_run
  have h := parseMessage_authenticated toyConfig (reachable_of_run (.start rfl) hrun)
  exact ⟨s, past, hrun, hlog, h.1 [] past _ _ hlog⟩

end HandsomeMod.Native.Ead
