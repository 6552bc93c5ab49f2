import HandsomeMod.Spec.EadAuth
import HandsomeMod.Spec.EadCryptCorrect

/-!
# The encrypted channel of the emergency access daemon

After the authentication, client and daemon encrypt under one key. An attacker who replays,
reorders, drops and relabels what both of them encrypt can make the daemon accept as a command only
what one of the two encrypted, and no payload twice. He can make it accept what it encrypted
itself.
-/

namespace HandsomeMod.Native.Ead

open ForStd

/-! ### What the log says about payloads -/

def Event.acceptedPayload : Event → Option (List UInt8)
  | .accepted payload => some payload
  | _ => none

def Event.sentPayload : Event → Option (List UInt8)
  | .sent _ _ (.encrypted payload) => some payload
  | _ => none

/-- The payloads that were accepted as commands. -/
def acceptedPayloads (log : List Event) : List (List UInt8) :=
  log.filterMap Event.acceptedPayload

/-- The payloads that the daemon encrypted. -/
def sentPayloads (log : List Event) : List (List UInt8) := log.filterMap Event.sentPayload

/-! ### The parties and the attacker -/

/-- Both parties after `ead_set_key`, and what the client has encrypted. -/
structure Net where
  server : Server
  client : Crypt
  clientSent : List (List UInt8)

/-- What the attacker has seen. -/
def Net.seen (net : Net) : List (List UInt8) := net.clientSent ++ sentPayloads net.server.log

/-- A session: the client is authenticated, both sides have set the same key, nothing is sent. -/
def Net.init (cfg : Config) (net : Net) : Prop :=
  ∃ skey c c' e, net.server.state = .sendCmd ∧ net.server.log = [] ∧
    net.server.crypt = eadSetKey cfg.prims skey c ∧
    net.client = eadSetKey { cfg.prims with endian := e } skey c' ∧ net.clientSent = []

/-- One step in the session. The attacker delivers a payload that was encrypted before, followed by
    bytes of his own, under a header of his own. -/
inductive NetStep (cfg : Config) : Net → Net → Prop where
  | command (net : Net) (body : List UInt8) (fill : Mem) :
    NetStep cfg net
      { net with
        client := (eadEncryptMessage cfg.prims net.client body fill).1
        clientSent := (eadEncryptMessage cfg.prims net.client body fill).2 :: net.clientSent }
  | toServer (net : Net) (o : Oracle) (pkt : Packet) (payload extra : List UInt8) (server : Server)
    (hstate : net.server.state = .sendCmd) (hseen : payload ∈ net.seen)
    (hdata : pkt.data = payload ++ extra)
    (hcaptured : pkt.wireLen.toNat = sizeofPacket + pkt.data.length)
    (hrun : handlePacket cfg o pkt net.server = .ok server) :
    NetStep cfg net { net with server := server }
  | toClient (net : Net) (payload extra : List UInt8) (len : UInt32) (hseen : payload ∈ net.seen) :
    NetStep cfg net
      { net with client := (eadDecryptMessage cfg.prims net.client len (payload ++ extra)).1 }

/-- No two different messages that payloads of the session carry have the same hash. -/
def Net.CollisionFree (p : Prims) (net : Net) : Prop :=
  Set.InjOn p.sha { m | ∃ payload ∈ net.seen ++ acceptedPayloads net.server.log,
    m = hashedOf p net.server.crypt.key payload }

/-! ### The server in a session -/

/-- From `s` to `s'` the daemon has at most encrypted responses and raised its receive IV. -/
structure Sends (p : Prims) (s s' : Server) : Prop where
  key : s'.crypt.key = s.crypt.key
  rxIv : s.crypt.rxIv ≤ s'.crypt.rxIv
  accepted : acceptedPayloads s'.log = acceptedPayloads s.log
  sent : ∃ new, sentPayloads s'.log = new ++ sentPayloads s.log ∧
    ∀ payload ∈ new, IsMessage p s.crypt.key payload

/-- Sending nothing. -/
theorem Sends.refl (p : Prims) (s : Server) : Sends p s s :=
  ⟨rfl, UInt32.le_refl _, rfl, [], rfl, fun _ h => by cases h⟩

/-- Payloads that are sent one after the other. -/
theorem Sends.trans {p : Prims} {s s' s'' : Server} (h : Sends p s s') (h' : Sends p s' s'') :
    Sends p s s'' := by
  obtain ⟨new, hnew, hmsg⟩ := h.sent
  obtain ⟨new', hnew', hmsg'⟩ := h'.sent
  refine ⟨h'.key.trans h.key, UInt32.le_trans h.rxIv h'.rxIv, h'.accepted.trans h.accepted, new' ++ new,
    by rw [hnew', hnew, List.append_assoc], fun payload hmem => ?_⟩
  obtain hmem | hmem := List.mem_append.mp hmem
  · rw [← h.key]
    exact hmsg' payload hmem
  · exact hmsg payload hmem

/-- An event that neither accepts nor sends an encrypted payload. -/
theorem Sends.emit (p : Prims) (s : Server) {e : Event} (hacc : e.acceptedPayload = none)
    (hsent : e.sentPayload = none) : Sends p s (s.emit e) :=
  ⟨rfl, UInt32.le_refl _, by simp [acceptedPayloads, Server.emit, hacc], [],
    by simp [sentPayloads, Server.emit, hsent], fun _ h => by cases h⟩

/-- An encrypted response. -/
theorem Sends.encrypt (cfg : Config) (o : Oracle) (i : Nat) (body : List UInt8) (s : Server)
    (type : Nat) (sid : UInt16) :
    Sends cfg.prims s ((encrypt cfg o i body s).1.emit
      (.sent type sid (.encrypted (encrypt cfg o i body s).2))) := by
  obtain ⟨hmsg, hkey, hrx⟩ := eadEncryptMessage_spec cfg.prims s.crypt body (o.fill i)
  refine ⟨hkey, hrx ▸ UInt32.le_refl _, rfl, [(eadEncryptMessage cfg.prims s.crypt body (o.fill i)).2], rfl, ?_⟩
  intro payload hmem
  obtain rfl := List.mem_singleton.mp hmem
  exact hmsg

/-- The output of a command is sent. -/
theorem Sends.streamOutput (cfg : Config) (o : Oracle) (pkt : Packet) (i : Nat)
    (rounds : List (List UInt8)) (s : Server) :
    Sends cfg.prims s (streamOutput cfg o pkt i rounds s) := by
  induction rounds generalizing i s with
  | nil => exact Sends.refl _ s
  | cons bytes rounds ih =>
    exact (Sends.encrypt cfg o i (0 :: bytes) s EadType.resultCmd.code pkt.sid).trans (ih _ _)

/-- Outside `SEND_A`, `set_state` does not touch the keys. -/
theorem Sends.setState {cfg : Config} {o : Oracle} {nstate : EadType} {s s' : Server}
    (hs : s.state ≠ .sendA) (h : setState cfg o nstate s = .ok s') : Sends cfg.prims s s' := by
  -- only the step out of `sendA` sets a key, the others keep the key and the counters
  simp only [Ead.setState] at h
  split at h
  · cases h
    exact Sends.refl _ _
  · split at h
    · split at h
      · split at h
        · cases h
        · cases h
          exact ⟨rfl, UInt32.le_refl _, rfl, [], rfl, fun _ h => by cases h⟩
      · cases h
        exact ⟨rfl, UInt32.le_refl _, rfl, [], rfl, fun _ h => by cases h⟩
    · split at h
      · cases h
        simp only [openSession]
        split
        · exact Sends.refl _ _
        · split <;> exact ⟨rfl, UInt32.le_refl _, rfl, [], rfl, fun _ h => by cases h⟩
      · simp only [genExp] at h
        split at h
        · cases h
        · cases h
          exact ⟨rfl, UInt32.le_refl _, rfl, [], rfl, fun _ h => by cases h⟩
      · exact absurd (by assumption) hs
      · cases h
        exact ⟨rfl, UInt32.le_refl _, rfl, [], rfl, fun _ h => by cases h⟩

/-- From `s` to `s'` the daemon has accepted a payload from the start of `data` as a command. -/
structure Accepts (p : Prims) (data : List UInt8) (s s' : Server) (payload : List UInt8) :
    Prop where
  key : s'.crypt.key = s.crypt.key
  pre : payload <+: data
  message : IsMessage p s.crypt.key payload
  fresh : s.crypt.rxIv < ivOf p s.crypt.key payload
  rxIv : ivOf p s.crypt.key payload ≤ s'.crypt.rxIv
  accepted : acceptedPayloads s'.log = payload :: acceptedPayloads s.log
  sent : ∃ new, sentPayloads s'.log = new ++ sentPayloads s.log ∧
    ∀ payload ∈ new, IsMessage p s.crypt.key payload

/-- Payloads that are sent behind an accepted one. -/
theorem Accepts.trans_sends {p : Prims} {data payload : List UInt8} {s s' s'' : Server}
    (h : Accepts p data s s' payload) (h' : Sends p s' s'') : Accepts p data s s'' payload := by
  obtain ⟨new, hnew, hmsg⟩ := h.sent
  obtain ⟨new', hnew', hmsg'⟩ := h'.sent
  refine ⟨h'.key.trans h.key, h.pre, h.message, h.fresh, UInt32.le_trans h.rxIv h'.rxIv,
    h'.accepted.trans h.accepted, new' ++ new, by rw [hnew', hnew, List.append_assoc],
    fun payload hmem => ?_⟩
  obtain hmem | hmem := List.mem_append.mp hmem
  · rw [← h.key]
    exact hmsg' payload hmem
  · exact hmsg payload hmem

/-- What one packet does to the daemon in a session. -/
def SessionStep (p : Prims) (data : List UInt8) (s s' : Server) : Prop :=
  Sends p s s' ∨ ∃ payload, Accepts p data s s' payload

/-- Payloads that are sent behind a step of the session. -/
theorem SessionStep.trans_sends {p : Prims} {data : List UInt8} {s s' s'' : Server}
    (h : SessionStep p data s s') (h' : Sends p s' s'') : SessionStep p data s s'' := by
  obtain h | ⟨payload, h⟩ := h
  · exact Or.inl (h.trans h')
  · exact Or.inr ⟨payload, h.trans_sends h'⟩

/-- Sending the output does not change the state. -/
private theorem streamOutput_state (cfg : Config) (o : Oracle) (pkt : Packet) (i : Nat)
    (rounds : List (List UInt8)) (s : Server) :
    (streamOutput cfg o pkt i rounds s).state = s.state := by
  induction rounds generalizing i s with
  | nil => rfl
  | cons bytes rounds ih => exact ih _ _

/-- Sending the response does not change the state. -/
theorem Handled.send_state (h : Handled) (type : Nat) (sid : UInt16) :
    (h.send type sid).state = h.server.state := by
  rw [Handled.send]
  split <;> rfl

/-- Running a command encrypts responses and leaves the state alone. -/
private theorem runCmd_sends (cfg : Config) (o : Oracle) (pkt : Packet) (enc : List UInt8)
    (datalen : Nat)
    (s : Server) (type : Nat) :
    Sends cfg.prims s ((runCmd cfg o pkt enc datalen s).send type pkt.sid) ∧
      (runCmd cfg o pkt enc datalen s).server.state = s.state := by
  have hexec : ∀ command background, Sends cfg.prims s (s.emit (.exec command background)) :=
    fun command background => Sends.emit _ s rfl rfl
  simp only [runCmd]
  split
  · split
    -- the command is run, and its output follows
    · have hrun := (hexec (cString ((enc.drop 28).take datalen)) false).trans
        (Sends.streamOutput cfg o pkt 0 o.output _)
      split
      · exact ⟨hrun, streamOutput_state ..⟩
      · exact ⟨hrun.trans (Sends.encrypt cfg o _ [1] _ type pkt.sid), streamOutput_state ..⟩
    · exact ⟨Sends.refl _ s, rfl⟩
  · split
    · exact ⟨(hexec _ true).trans (Sends.encrypt cfg o 0 [1] _ type pkt.sid), rfl⟩
    · exact ⟨Sends.refl _ s, rfl⟩
  · exact ⟨Sends.refl _ s, rfl⟩

/-- SEND_CMD accepts a payload at most, and sends what it encrypts. -/
private theorem handleSendCmd_session (cfg : Config) (o : Oracle) (pkt : Packet) {s : Server}
    {h : Handled}
    (hint : pkt.len.toNat < 2 ^ 31) (hlen : pkt.len.toNat ≤ pkt.data.length) (type : Nat)
    (heq : handleSendCmd cfg o pkt s = .ok h) :
    SessionStep cfg.prims pkt.data s (h.send type pkt.sid) ∧ h.server.state = s.state := by
  obtain ⟨hkey, hrx⟩ := eadDecryptMessage_frame cfg.prims s.crypt pkt.len pkt.data
  have haccept := eadDecryptMessage_accept (p := cfg.prims) (c := s.crypt) hlen
  rw [← eadDecryptReturn_eq cfg.prims s.crypt pkt.data hint] at haccept
  -- what the command does behind the decryption only sends
  have hfinish : ∀ (datalen : Int) enc (s1 : Server), SessionStep cfg.prims pkt.data s s1 →
      s1.state = s.state → ∀ h : Handled,
      (if datalen ≤ 0 then .ok ⟨s1, none, s1.state⟩
        else .ok (runCmd cfg o pkt enc datalen.toNat s1) : Except Fault Handled) = .ok h →
      SessionStep cfg.prims pkt.data s (h.send type pkt.sid) ∧ h.server.state = s.state := by
    intro datalen enc s1 hstep hs1 h heq
    split at heq
    · cases heq
      exact ⟨hstep, hs1⟩
    · cases heq
      obtain ⟨hsends, hstate⟩ := runCmd_sends cfg o pkt enc datalen.toNat s1 type
      exact ⟨hstep.trans_sends hsends, hstate.trans hs1⟩
  simp only [handleSendCmd] at heq
  generalize eadDecryptMessage cfg.prims s.crypt pkt.len pkt.data = r at hkey hrx haccept heq
  refine hfinish _ _ _ ?_ ?_ h heq
  · split
    · rename_i hn
      obtain ⟨hmsg, hfresh, hiv⟩ := haccept hn
      exact Or.inr ⟨_, hkey, List.take_prefix _ _, hmsg, hfresh, hiv ▸ UInt32.le_refl _, rfl, [],
        rfl, fun _ h => by cases h⟩
    · exact Or.inl ⟨hkey, hrx, rfl, [], rfl, fun _ h => by cases h⟩
  · split <;> rfl

/-- A handler other than `handle_send_cmd` sends nothing encrypted, in a session. -/
private theorem handle_sends (cfg : Config) (o : Oracle) (pkt : Packet) {type : EadType}
    {s : Server}
    {h : Handled} (hs : s.state = .sendCmd) (htype : type = .ping ∨ type = .setUsername)
    (reply : Nat) (heq : handle cfg o pkt type s = .ok h) :
    Sends cfg.prims s (h.send reply pkt.sid) ∧ (h.send reply pkt.sid).state ≠ .sendA := by
  -- a ping only replies; a user name leaves the session, and replies too
  obtain rfl | rfl := htype
  · simp only [handle, handlePing] at heq
    cases heq
    refine ⟨Sends.emit _ s rfl rfl, ?_⟩
    rw [Handled.send_state, hs]
    exact fun h => by cases h
  · simp only [handle, handleSetUsername] at heq
    cases hset : setState cfg o .setUsername s with
    | error f =>
      rw [hset] at heq
      cases heq
    | ok s1 =>
      rw [hset] at heq
      cases heq
      have hsends : Sends cfg.prims s s1 := Sends.setState (by rw [hs]; decide) hset
      have hstate : s1.state = .setUsername := by
        simp only [setState, hs] at hset
        rw [if_neg (by decide), if_pos (by decide), if_pos (by decide)] at hset
        split at hset
        · cases hset
        · cases hset
          rfl
      -- storing the name sends nothing
      have hname : Sends cfg.prims s1 ({ s1 with username := cString (pkt.data.take 31) }.emit
          (.setUsername (cString (pkt.data.take 31)))) := by
        exact ⟨rfl, UInt32.le_refl _, rfl, [], rfl, fun _ h => by cases h⟩
      refine ⟨(hsends.trans hname).trans (Sends.emit _ _ rfl rfl), ?_⟩
      rw [Handled.send_state]
      show s1.state ≠ .sendA
      rw [hstate]
      exact fun h => by cases h

/-- One packet in a session. -/
private theorem parseMessage_session (cfg : Config) (o : Oracle) (pkt : Packet) {s s' : Server}
    (hs : s.state = .sendCmd) (hwire : sizeofPacket + pkt.len.toNat ≤ pkt.wireLen.toNat)
    (hlen : pkt.len.toNat ≤ pkt.data.length) (heq : parseMessage cfg o pkt s = .ok s') : SessionStep cfg.prims pkt.data s s' := by
  have hlog : Sends cfg.prims s (s.emit (.packet pkt.type)) := Sends.emit _ s rfl rfl
  have hs1 : (s.emit (.packet pkt.type)).state = .sendCmd := hs
  have hcond : SessionStep cfg.prims pkt.data (s.emit (.packet pkt.type)) s' := by
    simp only [parseMessage] at heq
    generalize s.emit (.packet pkt.type) = s1 at hs1 heq
    split at heq
    · cases heq
      exact Or.inl (Sends.refl _ _)
    · rename_i type hreq
      split at heq
      · cases heq
        exact Or.inl (Sends.refl _ _)
      · rename_i htype
        split at heq
        · cases heq
          exact Or.inl (Sends.refl _ _)
        · split at heq
          · cases heq
            exact Or.inl (Sends.refl _ _)
          · rename_i hmin
            -- a captured length that is not negative as an `int` bounds that of the message
            have hint : pkt.len.toNat < 2 ^ 31 := by
              have hpos := @msgLen_pos pkt.wireLen (by rw [sizeofPacket] at hmin; omega)
              have hlt := pkt.wireLen.toNat_lt
              rw [msgLen] at hpos
              split at hpos <;> omega
            cases hh : handle cfg o pkt type s1 with
            | error f =>
              rw [hh] at heq
              cases heq
            | ok h =>
              rw [hh] at heq
              simp only [bind, Except.bind] at heq
              have hmem := List.mem_of_find?_eq_some hreq
              -- in this state a command is decrypted, and only a ping or a user name is handled
              -- besides
              by_cases hcmd : type = .sendCmd
              · subst hcmd
                obtain ⟨hstep, hstate⟩ := handleSendCmd_session cfg o pkt hint hlen
                  (EadType.sendCmd.code + 1) hh
                refine hstep.trans_sends (Sends.setState ?_ heq)
                rw [Handled.send_state, hstate, hs1]
                exact fun h => by cases h
              · have hlow : type = .ping ∨ type = .setUsername := by
                  rw [hs1] at htype
                  revert htype hcmd hmem
                  cases type <;> decide
                obtain ⟨hsends, hstate⟩ := handle_sends cfg o pkt hs1 hlow (type.code + 1) hh
                exact Or.inl (hsends.trans (Sends.setState hstate heq))
  obtain h | ⟨payload, h⟩ := hcond
  · exact Or.inl (hlog.trans h)
  · exact Or.inr ⟨payload, h.key, h.pre, h.message, h.fresh, h.rxIv, h.accepted, h.sent⟩

/-- So does a packet in SEND_CMD. -/
private theorem handlePacket_session (cfg : Config) (o : Oracle) (pkt : Packet) {s s' : Server}
    (hs : s.state = .sendCmd) (hcaptured : pkt.wireLen.toNat = sizeofPacket + pkt.data.length)
    (heq : handlePacket cfg o pkt s = .ok s') : SessionStep cfg.prims pkt.data s s' := by
  -- a packet that is dropped leaves the server as it was
  have hdrop : ∀ s1, (.ok s : Except Fault Server) = .ok s1 →
      SessionStep cfg.prims pkt.data s s1 := by
    intro s1 h1
    cases h1
    exact Or.inl (Sends.refl _ _)
  rw [handlePacket] at heq
  split at heq
  · exact hdrop _ heq
  · split at heq
    · exact hdrop _ heq
    · split at heq
      · exact hdrop _ heq
      · split at heq
        · exact hdrop _ heq
        · split at heq
          · exact hdrop _ heq
          · split at heq
            · exact hdrop _ heq
            · split at heq
              · exact hdrop _ heq
              · split at heq
                · exact hdrop _ heq
                · exact parseMessage_session cfg o pkt hs (by omega) (by omega) heq

/-! ### The channel -/

/-- What every state of a session satisfies. -/
structure NetInv (p : Prims) (net : Net) : Prop where
  key : net.client.key = net.server.crypt.key
  seen : ∀ payload ∈ net.seen, IsMessage p net.server.crypt.key payload
  accepted : ∀ payload ∈ acceptedPayloads net.server.log,
    IsMessage p net.server.crypt.key payload ∧
      ivOf p net.server.crypt.key payload ≤ net.server.crypt.rxIv ∧
      ∃ data, payload <+: data ∧ ∃ sent ∈ net.seen, sent <+: data
  nodup : (acceptedPayloads net.server.log).Nodup

/-- The invariant holds when the session starts. -/
theorem NetInv.start {cfg : Config} {net : Net} (h : net.init cfg) : NetInv cfg.prims net := by
  obtain ⟨skey, c, c', e, -, hlog, hserver, hclient, hsent⟩ := h
  refine ⟨by rw [hclient, hserver]; rfl, ?_, ?_, ?_⟩
  · simp [Net.seen, hsent, hlog, sentPayloads]
  · simp [hlog, acceptedPayloads]
  · simp [hlog, acceptedPayloads]

/-- The attacker keeps what he has seen. -/
theorem NetInv.command {p : Prims} {net : Net} (h : NetInv p net) (body : List UInt8)
    (fill : Mem) :
    NetInv p { net with
      client := (eadEncryptMessage p net.client body fill).1
      clientSent := (eadEncryptMessage p net.client body fill).2 :: net.clientSent } := by
  obtain ⟨hmsg, hkey, -⟩ := eadEncryptMessage_spec p net.client body fill
  refine ⟨hkey.trans h.key, fun payload hmem => ?_, fun payload hmem => ?_, h.nodup⟩
  · obtain rfl | hmem := List.mem_cons.mp hmem
    · rw [← h.key]
      exact hmsg
    · exact h.seen payload hmem
  · obtain ⟨hm, hiv, data, hpre, sent, hsent, hpre'⟩ := h.accepted payload hmem
    exact ⟨hm, hiv, data, hpre, sent, List.mem_cons_of_mem _ hsent, hpre'⟩

/-- The attacker keeps what was seen before. -/
private theorem mem_seen_of_sends {net : Net} {server : Server} {new : List (List UInt8)}
    (hnew : sentPayloads server.log = new ++ sentPayloads net.server.log) {payload : List UInt8}
    (h : payload ∈ net.seen) : payload ∈ ({ net with server := server } : Net).seen := by
  simp only [Net.seen, hnew, List.mem_append] at h ⊢
  tauto

/-- The server sends and accepts within the session. -/
theorem NetInv.server {p : Prims} {net : Net} (h : NetInv p net) {payload data : List UInt8}
    {server : Server} (hseen : payload ∈ net.seen) (hpre : payload <+: data)
    (hstep : SessionStep p data net.server server) : NetInv p { net with server := server } := by
  obtain hs | ⟨q, ha⟩ := hstep
  -- the server only sent: what it sent is new among the seen, nothing is accepted
  · obtain ⟨new, hnew, hmsg⟩ := hs.sent
    refine ⟨h.key.trans hs.key.symm, fun x hmem => ?_, fun x hmem => ?_, ?_⟩
    · simp only [Net.seen, hnew, List.mem_append] at hmem
      rw [hs.key]
      obtain hmem | hmem | hmem := hmem
      · exact h.seen x (List.mem_append_left _ hmem)
      · exact hmsg x hmem
      · exact h.seen x (List.mem_append_right _ hmem)
    · rw [hs.accepted] at hmem
      obtain ⟨hm, hiv, data', hpre', sent, hsent, hpre''⟩ := h.accepted x hmem
      rw [hs.key]
      exact ⟨hm, UInt32.le_trans hiv hs.rxIv, data', hpre', sent, mem_seen_of_sends hnew hsent,
        hpre''⟩
    · rw [hs.accepted]
      exact h.nodup
  -- the server accepted the payload too, which was among those seen
  · obtain ⟨new, hnew, hmsg⟩ := ha.sent
    refine ⟨h.key.trans ha.key.symm, fun x hmem => ?_, fun x hmem => ?_, ?_⟩
    · simp only [Net.seen, hnew, List.mem_append] at hmem
      rw [ha.key]
      obtain hmem | hmem | hmem := hmem
      · exact h.seen x (List.mem_append_left _ hmem)
      · exact hmsg x hmem
      · exact h.seen x (List.mem_append_right _ hmem)
    · rw [ha.accepted] at hmem
      rw [ha.key]
      obtain rfl | hmem := List.mem_cons.mp hmem
      · exact ⟨ha.message, ha.rxIv, data, ha.pre, payload, mem_seen_of_sends hnew hseen, hpre⟩
      · obtain ⟨hm, hiv, data', hpre', sent, hsent, hpre''⟩ := h.accepted x hmem
        exact ⟨hm, UInt32.le_trans hiv (UInt32.le_trans (UInt32.le_of_lt ha.fresh) ha.rxIv),
          data', hpre', sent, mem_seen_of_sends hnew hsent, hpre''⟩
    · rw [ha.accepted]
      refine List.nodup_cons.mpr ⟨fun hmem => ?_, h.nodup⟩
      -- its IV is beyond those of all payloads accepted before
      obtain ⟨-, hiv, -⟩ := h.accepted q hmem
      exact absurd ha.fresh (UInt32.not_lt.mpr hiv)

/-- Every reachable state of the network meets the invariant. -/
theorem netInv_of_reachable {cfg : Config} {net : Net}
    (h : Reachable (Net.init cfg) (NetStep cfg) net) : NetInv cfg.prims net := by
  refine h.invariant (fun net h0 => NetInv.start h0) fun net net' hinv hstep => ?_
  cases hstep with
  | command body fill => exact hinv.command body fill
  | toServer o pkt payload extra server hstate hseen hdata hcaptured hrun =>
    exact hinv.server hseen ⟨extra, hdata.symm⟩
      (handlePacket_session cfg o pkt hstate hcaptured hrun)
  | toClient payload extra len hseen =>
    obtain ⟨hkey, -⟩ := eadDecryptMessage_frame cfg.prims net.client len (payload ++ extra)
    exact ⟨hkey.trans hinv.key, hinv.seen, hinv.accepted, hinv.nodup⟩

/-- Every payload that the daemon accepts as a command in a session was encrypted in that session,
    by the client as a command or by the daemon itself as a response, and is accepted once. -/
theorem accepted_was_encrypted (cfg : Config) {net : Net}
    (h : Reachable (Net.init cfg) (NetStep cfg) net) (hfree : net.CollisionFree cfg.prims) :
    (∀ payload ∈ acceptedPayloads net.server.log,
      payload ∈ net.clientSent ∨ payload ∈ sentPayloads net.server.log) ∧
    (acceptedPayloads net.server.log).Nodup := by
  have hinv := netInv_of_reachable h
  refine ⟨fun payload hmem => ?_, hinv.nodup⟩
  obtain ⟨hmsg, -, data, hpre, sent, hsent, hpre'⟩ := hinv.accepted payload hmem
  have heq : payload = sent := by
    refine hmsg.eq_of_prefix (hinv.seen sent hsent) hpre hpre' fun hsha => hfree ?_ ?_ hsha
    · exact ⟨payload, List.mem_append_right _ hmem, rfl⟩
    · exact ⟨sent, List.mem_append_left _ hsent, rfl⟩
  rw [heq]
  exact List.mem_append.mp hsent

/-! ### A reflected response -/

/-- The session of `toyInputs`, before its command. -/
def toyNet : Net :=
  { server := { initServer with
      state := .sendCmd
      ts := some { id := 0, name := [114, 111], salt := [], exp := some [7]
                   key := some (List.replicate 40 1) }
      crypt := eadSetKey toyPrims (List.replicate 40 1) initServer.crypt }
    client := eadSetKey toyPrims (List.replicate 40 1) initServer.crypt
    clientSent := [] }

/-- The daemon after a packet, if it does not crash. -/
def toyDeliver (output : List (List UInt8)) (timedOut : Bool) (payload : List UInt8)
    (s : Server) : Server :=
  match handlePacket toyConfig { toyOracle with output := output, timedOut := timedOut }
    (toyPacket 10 payload) s with
  | .ok s => s
  | .error _ => s

/-- The client's command is delivered, and its output has the form of a command. -/
def toyAnswered : Server := toyDeliver [[], [0, 10, 108, 115, 0]] false toyCommand toyNet.server

/-- The second of the three responses. -/
def toyResponse : List UInt8 := (sentPayloads toyAnswered.log).getD 1 []

/-- That response is delivered to the daemon. -/
def toyReflected : Net :=
  { server := toyDeliver [] true toyResponse toyAnswered
    client := (eadEncryptMessage toyPrims toyNet.client [0, 0, 10, 108, 115, 0] fun _ => 0).1
    clientSent := [toyCommand] }

/-- The network of the examples is reachable. -/
private theorem toyReflected_reachable :
    Reachable (Net.init toyConfig) (NetStep toyConfig) toyReflected := by
  have hstart : Reachable (Net.init toyConfig) (NetStep toyConfig) toyNet :=
    .start ⟨List.replicate 40 1, initServer.crypt, initServer.crypt, .little, rfl, rfl, rfl, rfl,
      rfl⟩
  have hsent := hstart.next (.command toyNet [0, 0, 10, 108, 115, 0] fun _ => 0)
  have hanswered := hsent.next (.toServer _
    { toyOracle with output := [[], [0, 10, 108, 115, 0]], timedOut := false }
    (toyPacket 10 toyCommand) toyCommand [] toyAnswered rfl (by decide) rfl rfl rfl)
  exact hanswered.next (.toServer _ { toyOracle with output := [], timedOut := true }
    (toyPacket 10 toyResponse) toyResponse [] _ rfl (by decide) rfl rfl rfl)

/-- The toy hash has no collision among its messages. -/
private theorem toyReflected_collisionFree : toyReflected.CollisionFree toyPrims := by
  have hlist : ∀ x ∈ toyReflected.seen ++ acceptedPayloads toyReflected.server.log,
      ∀ y ∈ toyReflected.seen ++ acceptedPayloads toyReflected.server.log,
        toyPrims.sha (hashedOf toyPrims toyReflected.server.crypt.key x) =
          toyPrims.sha (hashedOf toyPrims toyReflected.server.crypt.key y) →
        hashedOf toyPrims toyReflected.server.crypt.key x =
          hashedOf toyPrims toyReflected.server.crypt.key y := by
    decide
  rintro a ⟨x, hx, rfl⟩ b ⟨y, hy, rfl⟩ hsha
  exact hlist x hx y hy hsha

/-- The daemon accepts its own response as a command that the client never encrypted. -/
theorem toyReflected_not_from_client :
    ∃ net, Reachable (Net.init toyConfig) (NetStep toyConfig) net ∧ net.CollisionFree toyPrims ∧
      ∃ payload ∈ acceptedPayloads net.server.log, payload ∉ net.clientSent :=
  ⟨toyReflected, toyReflected_reachable, toyReflected_collisionFree, toyResponse, by decide,
    by decide⟩

/-- A response that is reflected is accepted as a command. -/
theorem accepted_was_encrypted_toyReflected :
    (∀ payload ∈ acceptedPayloads toyReflected.server.log,
      payload ∈ toyReflected.clientSent ∨ payload ∈ sentPayloads toyReflected.server.log) ∧
    (acceptedPayloads toyReflected.server.log).Nodup :=
  accepted_was_encrypted toyConfig toyReflected_reachable toyReflected_collisionFree

end HandsomeMod.Native.Ead
