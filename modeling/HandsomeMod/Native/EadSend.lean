import HandsomeMod.ForStd.Mem

/-!
# Responses of the emergency access daemon

Embeds `chksum` and `ead_send_packet_clone` of `package/network/services/ead/src/ead.c`. A packet is
memory from its Ethernet header on. `pktbuf` is where a handler has left its message, `pkt` the
captured request.
-/

namespace HandsomeMod.Native.Ead

open ForStd

/-! ### `struct ead_packet` -/

/-- The offsets of its fields. -/
def ofsDhost : Nat := 0
def ofsShost : Nat := 6
def ofsVhl : Nat := 14
def ofsLen : Nat := 16
def ofsIpchksum : Nat := 24
def ofsSrcipaddr : Nat := 26
def ofsDestipaddr : Nat := 30
def ofsSrcport : Nat := 34
def ofsDestport : Nat := 36
def ofsUdplen : Nat := 38
def ofsUdpchksum : Nat := 40
def ofsMsg : Nat := 42

/-- `msg.len` -/
def ofsMsgLen : Nat := 46

/-- `msg.ip` -/
def ofsMsgIp : Nat := 58

/-- `sizeof(struct ead_packet) - sizeof(struct ether_header)` -/
def sizeofIpPacket : Nat := 48

def uipIphLen : Nat := 20

def uipProtoUdp : UInt16 := 17

/-! ### `chksum` -/

/-- `sum += t`, and the carry. -/
def addWord (sum t : UInt16) : UInt16 :=
  let sum := sum + t
  if sum < t then sum + 1 else sum

/-- `chksum` of these bytes, the last one alone if their number is odd -/
def chksum (sum : UInt16) : List UInt8 → UInt16
  | a :: b :: data => chksum (addWord sum ((a.toUInt16 <<< 8) + b.toUInt16)) data
  | [a] => addWord sum ((a.toUInt16 <<< 8) + 0)
  | [] => sum

/-! ### `ead_send_packet_clone` -/

/-- The bytes of `htons(v)` in memory. -/
def htonsBytes (v : UInt16) : List UInt8 := [(v >>> 8).toUInt8, v.toUInt8]

/-- `ntohl(pktbuf->msg.len)` -/
def msgLenOf (pktbuf : Mem) : Nat := loadBE 4 fun i => pktbuf (ofsMsgLen + i)

/-- The value for a checksum field. -/
def complementSum (sum : UInt16) : UInt16 :=
  let sum := if sum = 0 then 0xffff else sum
  ~~~sum

/-- The headers up to the checksum of the IP header. -/
def ipPacket (ethmac pktbuf pkt : Mem) (len : UInt16) : Mem :=
  let m := writeBytes pktbuf 0 (bytesAt pkt 0 ofsMsg)
  let m := writeBytes m ofsShost (bytesAt ethmac 0 6)
  let m := writeBytes m ofsDhost (bytesAt pkt ofsShost 6)
  let m := writeBytes m ofsLen [(len >>> 8).toUInt8, (len &&& 0xff).toUInt8]
  let m := writeBytes m ofsSrcipaddr (bytesAt pkt ofsMsgIp 4)
  let m := writeBytes m ofsDestipaddr (bytesAt pkt ofsSrcipaddr 4)
  let m := writeBytes m ofsIpchksum [0, 0]
  writeBytes m ofsIpchksum (htonsBytes (complementSum (chksum 0 (bytesAt m ofsVhl uipIphLen))))

/-- The UDP header; `len` is the length of the datagram. -/
def udpPacket (m pkt : Mem) (len : UInt16) : Mem :=
  let m := writeBytes m ofsSrcport (bytesAt pkt ofsDestport 2)
  let m := writeBytes m ofsDestport (bytesAt pkt ofsSrcport 2)
  let m := writeBytes m ofsUdplen (htonsBytes len)
  let m := writeBytes m ofsUdpchksum [0, 0]
  let sum := len + uipProtoUdp
  -- src, dest ip
  let sum := chksum sum (bytesAt m ofsSrcipaddr 8)
  let sum := chksum sum (bytesAt m ofsSrcport len.toNat)
  writeBytes m ofsUdpchksum (htonsBytes (complementSum sum))

/-- `ead_send_packet_clone`: what is sent. -/
def eadSendPacketClone (ethmac pktbuf pkt : Mem) : Mem :=
  let len := UInt16.ofNat (sizeofIpPacket + msgLenOf pktbuf)
  udpPacket (ipPacket ethmac pktbuf pkt len) pkt (len - UInt16.ofNat uipIphLen)

end HandsomeMod.Native.Ead
