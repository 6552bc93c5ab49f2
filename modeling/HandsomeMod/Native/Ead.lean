import HandsomeMod.ForStd.Access
import HandsomeMod.Native.EadCrypt

/-!
# The emergency access daemon

Embeds the packet handling of `package/network/services/ead/src/ead.c`: `handle_packet`,
`parse_message`, its handlers and `set_state`. The SRP library, the password file and the operating
system answer through an `Oracle`, a new one for each packet; a `t_server` is a `Session`. What the
daemon does to the outside and to its SRP sessions is logged, the latest event first.

The addresses and checksums of the responses are in `EadSend`.
-/

namespace HandsomeMod.Native.Ead

open ForStd

/-- `enum ead_type` -/
inductive EadType where
  | ping
  | pong
  | setUsername
  | ackUsername
  | getPrime
  | prime
  | sendA
  | sendB
  | sendAuth
  | doneAuth
  | sendCmd
  | resultCmd
  deriving Repr, DecidableEq

/-- The value of the enumerator. -/
def EadType.code : EadType → Nat
  | .ping => 0
  | .pong => 1
  | .setUsername => 2
  | .ackUsername => 3
  | .getPrime => 4
  | .prime => 5
  | .sendA => 6
  | .sendB => 7
  | .sendAuth => 8
  | .doneAuth => 9
  | .sendCmd => 10
  | .resultCmd => 11

/-- A captured packet. `data` is what follows `struct ead_msg`, `wireLen` is `h->len`; the fields
    of the message header are in host order. -/
structure Packet where
  wireLen : UInt32
  etherType : UInt16
  etherDhost : List UInt8
  proto : UInt8
  destport : UInt16
  magic : UInt32
  len : UInt32
  type : UInt32
  nid : UInt16
  sid : UInt16
  data : List UInt8

/-- What `prepare_password` finds in the password file. -/
structure Account where
  /-- `tce->index` -/
  index : Nat
  /-- `tpe.salt` -/
  salt : List UInt8
  /-- `pw_saltbuf` -/
  pwSalt : List UInt8

/-- A `struct t_server`; `id` tells the sessions of a run apart. -/
structure Session where
  id : Nat
  name : List UInt8
  salt : List UInt8
  /-- `ts->B`, once `t_servergenexp` has set it -/
  exp : Option (List UInt8)
  /-- `ts->session_key`, once `t_servergetkey` has set it -/
  key : Option (List UInt8)

/-- The payload of a response. -/
inductive Response where
  | pong (authType : UInt16) (name : List UInt8)
  | empty
  | salt (prime : Nat) (salt extSalt : List UInt8)
  | number (data : List UInt8)
  | auth (data : List UInt8)
  | encrypted (payload : List UInt8)

/-- What the daemon does. -/
inductive Event where
  /-- `parse_message` is called with a packet of this type -/
  | packet (type : UInt32)
  /-- `handle_set_username` stores a user name -/
  | setUsername (name : List UInt8)
  /-- `t_serveropenraw` returns a session for the name -/
  | opened (id : Nat) (name : List UInt8)
  /-- `t_servergetkey` returns a key -/
  | gotKey (id : Nat) (skey : List UInt8)
  /-- `ead_set_key` -/
  | setKey (skey : List UInt8)
  /-- `t_serververify` returns 0 -/
  | verified (id : Nat)
  /-- `ead_decrypt_message` returns a positive length for a `SEND_CMD` with this payload -/
  | accepted (payload : List UInt8)
  /-- a child runs `system(command)` -/
  | exec (command : List UInt8) (background : Bool)
  /-- a response packet with this type -/
  | sent (type : Nat) (sid : UInt16) (response : Response)

/-- What makes the daemon crash. -/
inductive Fault where
  /-- `ts` is dereferenced and NULL -/
  | nullSession
  /-- `tce` is dereferenced and NULL -/
  | nullConfent
  /-- `B` is read and NULL, points into a closed session or was not generated there -/
  | badExp
  /-- `memcpy` with a length that does not fit the packet buffer -/
  | wildCopy
  deriving Repr, DecidableEq

/-- The answers to one packet. -/
structure Oracle where
  /-- `prepare_password` for a user name; `none` is false -/
  preparePassword : List UInt8 → Option Account
  /-- `malloc` in `t_serveropenraw` succeeds -/
  openOk : Bool
  servergenexp : List UInt8
  /-- `t_servergetkey`; `none` is NULL -/
  servergetkey : Option (List UInt8)
  /-- `t_serververify(ts, data)` returns 0 -/
  serververify : Bool
  serverresponse : List UInt8
  pipeOk : Bool
  forkOk : Bool
  /-- the bytes read from the child in each round that sends them -/
  output : List (List UInt8)
  /-- the child is still pending when the time is over -/
  timedOut : Bool
  /-- what the message buffer holds behind the data of each response -/
  fill : Nat → Mem

/-- What does not change while the daemon runs. -/
structure Config where
  prims : Prims
  /-- `instance->id` -/
  instanceId : Int
  nid : UInt16
  devName : List UInt8

/-- The static variables of `ead.c` and `ead-crypt.c`. `B` is the session whose buffer it points
    to; `account` stands for `tce`, `tpe` and `pw_saltbuf`. -/
structure Server where
  state : EadType
  username : List UInt8
  account : Option Account
  ts : Option Session
  B : Option Nat
  A : List UInt8
  crypt : Crypt
  nextId : Nat
  log : List Event

def maxParamLen : Nat := 256

def maxSaltLen : Nat := 32

def eadMagic : UInt32 := 3671771902

def eadPort : UInt16 := 56026

/-- `sizeof(struct ead_packet)` -/
def sizeofPacket : Nat := 62

def Server.emit (s : Server) (e : Event) : Server := { s with log := e :: s.log }

/-- The bytes before the first NUL. -/
def cString (l : List UInt8) : List UInt8 := l.takeWhile (· != 0)

/-! ### `set_state` -/

/-- `case EAD_TYPE_SET_USERNAME` -/
def openSession (o : Oracle) (nstate : EadType) (s : Server) : Server :=
  match o.preparePassword s.username with
  | none => s
  | some account =>
    if o.openOk then
      { s with
        account := some account
        ts := some { id := s.nextId, name := s.username, salt := account.salt, exp := none
                     key := none }
        nextId := s.nextId + 1
        state := nstate }.emit (.opened s.nextId s.username)
    else { s with account := some account, ts := none }

/-- `case EAD_TYPE_GET_PRIME` -/
def genExp (o : Oracle) (nstate : EadType) (s : Server) : Except Fault Server :=
  match s.ts with
  | none => .error .nullSession
  | some ts =>
    .ok { s with
      ts := some { ts with exp := some o.servergenexp }
      B := some ts.id
      state := nstate }

/-- `case EAD_TYPE_SEND_A` -/
def getKey (cfg : Config) (o : Oracle) (nstate : EadType) (s : Server) : Except Fault Server :=
  match s.ts with
  | none => .error .nullSession
  | some ts =>
    match o.servergetkey with
    | none => .ok s
    | some skey =>
      .ok ({ s with
        ts := some { ts with key := some skey }
        crypt := eadSetKey cfg.prims skey s.crypt
        state := nstate }.emit (.gotKey ts.id skey) |>.emit (.setKey skey))

def setState (cfg : Config) (o : Oracle) (nstate : EadType) (s : Server) : Except Fault Server :=
  if s.state = nstate then .ok s
  else if nstate.code < s.state.code then
    -- back to the user name: the session is closed
    if nstate.code < EadType.getPrime.code ∧ s.state.code ≥ EadType.getPrime.code then
      match s.ts with
      | none => .error .nullSession
      | some _ => .ok { s with ts := none, state := nstate }
    else .ok { s with state := nstate }
  else
    -- forwards, by the state that is left
    match s.state with
    | .setUsername => .ok (openSession o nstate s)
    | .getPrime => genExp o nstate s
    | .sendA => getKey cfg o nstate s
    | _ => .ok { s with state := nstate }

/-! ### The handlers -/

/-- What a handler leaves: the variables, the response if it returns true, and `nstate`. -/
structure Handled where
  server : Server
  response : Option Response
  nstate : EadType

/-- The response packet, if the handler returns true. -/
def Handled.send (h : Handled) (type : Nat) (sid : UInt16) : Server :=
  match h.response with
  | some response => h.server.emit (.sent type sid response)
  | none => h.server

def handlePing (cfg : Config) (s : Server) : Except Fault Handled :=
  .ok ⟨s, some (.pong 1 (cfg.devName.take 1024)), s.state⟩

def handleSetUsername (cfg : Config) (o : Oracle) (pkt : Packet) (s : Server) :
    Except Fault Handled := do
  -- clear old state
  let s ← setState cfg o .setUsername s
  let name := cString (pkt.data.take 31)
  pure ⟨{ s with username := name }.emit (.setUsername name), some .empty, .getPrime⟩

def handleGetPrime (s : Server) : Except Fault Handled :=
  match s.account, s.ts with
  | none, _ => .error .nullConfent
  | _, none => .error .nullSession
  | some account, some ts =>
    .ok ⟨s, some (.salt (account.index - 1) ts.salt (account.pwSalt.take maxSaltLen)), .sendA⟩

/-- The bytes that `B` points to. -/
def readExp (s : Server) : Except Fault (List UInt8) :=
  match s.B, s.ts with
  | some id, some ts =>
    if id = ts.id then
      match ts.exp with
      | some exp => .ok exp
      | none => .error .badExp
    else .error .badExp
  | _, _ => .error .badExp

def handleSendA (pkt : Packet) (s : Server) : Except Fault Handled :=
  -- `sizeof(struct ead_msg_number)` is 1
  let len := msgLen (pkt.len - 1)
  if len > maxParamLen + 1 then .ok ⟨s, none, s.state⟩
  else if len < 0 then .error .wildCopy
  else do
    let s := { s with A := (pkt.data.drop 1).take len.toNat }
    let exp ← readExp s
    pure ⟨s, some (.number exp), .sendAuth⟩

def handleSendAuth (o : Oracle) (s : Server) : Except Fault Handled :=
  match s.ts with
  | none => .error .nullSession
  | some ts =>
    if o.serververify then
      .ok ⟨s.emit (.verified ts.id), some (.auth (o.serverresponse.take 20)), .sendCmd⟩
    else .ok ⟨s, none, .setUsername⟩

/-- `ead_encrypt_message` in place; the payload is for a response. -/
def encrypt (cfg : Config) (o : Oracle) (i : Nat) (body : List UInt8) (s : Server) :
    Server × List UInt8 :=
  let (crypt, payload) := eadEncryptMessage cfg.prims s.crypt body (o.fill i)
  ({ s with crypt := crypt }, payload)

/-- The keepalive packets with the console data, `i` being the number of the first. -/
def streamOutput (cfg : Config) (o : Oracle) (pkt : Packet) :
    Nat → List (List UInt8) → Server → Server
  | _, [], s => s
  | i, bytes :: rounds, s =>
    let (s, payload) := encrypt cfg o i (0 :: bytes) s
    streamOutput cfg o pkt (i + 1) rounds
      (s.emit (.sent EadType.resultCmd.code pkt.sid (.encrypted payload)))

/-- The last packet of a response. -/
def finishCmd (cfg : Config) (o : Oracle) (i : Nat) (s : Server) : Handled :=
  let (s, payload) := encrypt cfg o i [1] s
  ⟨s, some (.encrypted payload), s.state⟩

/-- A decrypted command of positive length. -/
def runCmd (cfg : Config) (o : Oracle) (pkt : Packet) (enc : List UInt8) (datalen : Nat)
    (s : Server) : Handled :=
  -- `ntohs` of a byte
  let type := cfg.prims.endian.beToCpu 2 (memOf enc 25).toNat
  let command := cString ((enc.drop 28).take datalen)
  match type with
  | 0 =>
    if o.pipeOk ∧ o.forkOk then
      let s := streamOutput cfg o pkt 0 o.output (s.emit (.exec command false))
      if o.timedOut then ⟨s, none, s.state⟩ else finishCmd cfg o o.output.length s
    else ⟨s, none, s.state⟩
  | 1 => if o.forkOk then finishCmd cfg o 0 (s.emit (.exec command true)) else ⟨s, none, s.state⟩
  | _ => ⟨s, none, s.state⟩

/-- `datalen`; `sizeof(struct ead_msg_cmd)` is 3. -/
def cmdLen (p : Prims) (c : Crypt) (netlen : UInt32) (data : List UInt8) : Int :=
  Int.bmod (eadDecryptReturn p c netlen data - 3) (2 ^ 32)

def handleSendCmd (cfg : Config) (o : Oracle) (pkt : Packet) (s : Server) : Except Fault Handled :=
  let (crypt, _, enc) := eadDecryptMessage cfg.prims s.crypt pkt.len pkt.data
  let n := eadDecryptReturn cfg.prims s.crypt pkt.len pkt.data
  let datalen := cmdLen cfg.prims s.crypt pkt.len pkt.data
  let s := { s with crypt := crypt }
  let s := if n > 0 then s.emit (.accepted (pkt.data.take (msgLen pkt.len).toNat)) else s
  if datalen ≤ 0 then .ok ⟨s, none, s.state⟩ else .ok (runCmd cfg o pkt enc datalen.toNat s)

/-! ### `parse_message` -/

/-- The request types. -/
def requestOf (type : UInt32) : Option EadType :=
  [EadType.ping, .setUsername, .getPrime, .sendA, .sendAuth, .sendCmd].find?
    fun t => t.code == type.toNat

/-- What `min_len` adds to the size of the packet header. -/
def minLen : EadType → Nat
  | .setUsername => 32
  | .sendA => 1
  | .sendAuth => 20
  | .sendCmd => 3 + sizeofEncrypted
  | _ => 0

def handle (cfg : Config) (o : Oracle) (pkt : Packet) (type : EadType) (s : Server) :
    Except Fault Handled :=
  match type with
  | .setUsername => handleSetUsername cfg o pkt s
  | .getPrime => handleGetPrime s
  | .sendA => handleSendA pkt s
  | .sendAuth => handleSendAuth o s
  | .sendCmd => handleSendCmd cfg o pkt s
  | _ => handlePing cfg s

def parseMessage (cfg : Config) (o : Oracle) (pkt : Packet) (s : Server) : Except Fault Server :=
  let s := s.emit (.packet pkt.type)
  match requestOf pkt.type with
  | none => .ok s
  | some type =>
    if type.code ≥ EadType.getPrime.code ∧ s.state ≠ type then .ok s
    else if type ≠ .ping ∧ (((pkt.sid &&& 0xf000) >>> 12).toNat : Int) ≠ cfg.instanceId then .ok s
    -- `len` is an `int`
    else if msgLen pkt.wireLen < (sizeofPacket + minLen type : Nat) then .ok s
    else do
      let h ← handle cfg o pkt type s
      setState cfg o h.nstate (h.send (type.code + 1) pkt.sid)

def handlePacket (cfg : Config) (o : Oracle) (pkt : Packet) (s : Server) : Except Fault Server :=
  if pkt.wireLen.toNat < sizeofPacket then .ok s
  else if pkt.etherType ≠ 0x0800 then .ok s
  else if pkt.etherDhost ≠ List.replicate 6 0xff then .ok s
  else if pkt.proto ≠ 17 then .ok s
  else if pkt.destport ≠ eadPort then .ok s
  else if pkt.magic ≠ eadMagic then .ok s
  else if pkt.wireLen.toNat < sizeofPacket + pkt.len.toNat then .ok s
  else if pkt.nid ≠ 0xffff ∧ pkt.nid ≠ cfg.nid then .ok s
  else parseMessage cfg o pkt s

/-- The static variables when the daemon starts. -/
def initServer : Server :=
  { state := .setUsername, username := [], account := none, ts := none, B := none, A := []
    crypt := { key := [], rxIv := 0, txIv := 0, ivofsVec := 0, ivofsIdx := 0 }
    nextId := 0, log := [] }

/-!
## The accesses of the emergency access daemon

Which handler a captured packet gets to in `package/network/services/ead/src/ead.c`, and what the
handlers and `ead_decrypt_message` read from the packet and write: `data` is what was captured behind
`struct ead_msg`, `wireLen` may be more than that. The responses are built from the variables of the
daemon, and are not part of this.
-/

/-- `handle_packet` and `parse_message` up to the call of the handler. A `size_t` has `w` bits, and
    `parse_message` takes `h->len` as an `int`. -/
def handlerOf (w : Nat) (cfg : Config) (pkt : Packet) (s : Server) : Option EadType :=
  if pkt.wireLen.toNat < sizeofPacket then none
  else if pkt.etherType ≠ 0x0800 then none
  else if pkt.etherDhost ≠ List.replicate 6 0xff then none
  else if pkt.proto ≠ 17 then none
  else if pkt.destport ≠ eadPort then none
  else if pkt.magic ≠ eadMagic then none
  -- the sum of the lengths has the width of `size_t`
  else if pkt.wireLen.toNat < (sizeofPacket + pkt.len.toNat) % 2 ^ w then none
  else if pkt.nid ≠ 0xffff ∧ pkt.nid ≠ cfg.nid then none
  else
    match requestOf pkt.type with
    | none => none
    | some type =>
      -- from `EAD_TYPE_GET_PRIME` on a message is taken in its own state only
      if type.code ≥ EadType.getPrime.code ∧ s.state ≠ type then none
      else if type ≠ .ping ∧ (((pkt.sid &&& 0xf000) >>> 12).toNat : Int) ≠ cfg.instanceId then none
      else if msgLen pkt.wireLen < (sizeofPacket + minLen type : Nat) then none
      else some type

/-- `strncpy` into `username`: the source is read up to its NUL, the rest is filled. -/
def handleSetUsernameAccesses (pkt : Packet) : List Access :=
  [.bytes 0 (min 32 ((cString pkt.data).length + 1) : Nat) pkt.data.length, .bytes 0 32 32,
    .bytes 31 1 32]

/-- `memcpy(A.data, number->data, len)`; `A.data` is `abuf`. -/
def handleSendAAccesses (pkt : Packet) : List Access :=
  let len := msgLen (pkt.len - 1)
  if len > maxParamLen + 1 then []
  else [.bytes 1 len pkt.data.length, .bytes 0 len (maxParamLen + 1 : Nat)]

/-- `t_serververify` compares the response of the client. -/
def handleSendAuthAccesses (pkt : Packet) : List Access := [.bytes 0 20 pkt.data.length]

/-- `ead_decrypt_message`: the blocks, the padding, the IV, the hash and the hashed bytes. -/
def eadDecryptAccesses (p : Prims) (c : Crypt) (netlen : UInt32) (data : List UInt8) :
    List Access :=
  let len := msgLen netlen
  if len = 0 ∨ len.tmod eadEncPad > 0 then []
  else
    let enc := mapBlocks (p.rijndaelDecrypt c.key) ((len.toNat + 15) / 16) data
    let pad := (memOf enc 24).toNat
    -- whole AES blocks are decrypted in place
    [.bytes 0 (16 * ((len.toNat + 15) / 16) : Nat) data.length, .bytes 24 1 data.length] ++
      if pad ≥ eadEncPad then []
      else
        [.bytes 20 4 data.length] ++
          match eadCheckRxIv (ntohlAt (memOf enc) 20) c with
          | none => []
          | some _ =>
            -- the hash in front and the blocks of 64 bytes that it is taken over
            [.bytes 0 20 data.length, .bytes 0 (64 * ((len.toNat + 63) / 64) : Nat) data.length]

/-- The header of the command, and the NUL behind it: a byte of the packet, and of the area that was
    decrypted. -/
def handleSendCmdAccesses (cfg : Config) (pkt : Packet) (s : Server) : List Access :=
  let datalen := cmdLen cfg.prims s.crypt pkt.len pkt.data
  eadDecryptAccesses cfg.prims s.crypt pkt.len pkt.data ++
    if datalen ≤ 0 then []
    else
      [.bytes 25 3 pkt.data.length, .bytes (28 + datalen) 1 pkt.data.length,
        .bytes (28 + datalen) 1 (msgLen pkt.len)]

def handleAccesses (cfg : Config) (pkt : Packet) (type : EadType) (s : Server) : List Access :=
  match type with
  | .setUsername => handleSetUsernameAccesses pkt
  | .sendA => handleSendAAccesses pkt
  | .sendAuth => handleSendAuthAccesses pkt
  | .sendCmd => handleSendCmdAccesses cfg pkt s
  | _ => []

/-- `handle_packet` -/
def handlePacketAccesses (w : Nat) (cfg : Config) (pkt : Packet) (s : Server) : List Access :=
  match handlerOf w cfg pkt s with
  | some type => handleAccesses cfg pkt type s
  | none => []

end HandsomeMod.Native.Ead
