import HandsomeMod.ForStd.OnesComplement
import HandsomeMod.Native.EadSend

/-!
# The checksums of the responses

`chksum` adds words in one's complement arithmetic, whatever sum it starts from, so the checksums
that `ead_send_packet_clone` stores make the sums over the IP header, and over the pseudo header and
the datagram, all ones. None of them is the sum of zeros only, because the lengths are not.
-/

namespace HandsomeMod.Native.Ead

open ForStd

/-! ### `chksum` -/

/-- `addWord` adds the carry at the other end. -/
private theorem addWord_toNat (sum t : UInt16) :
    (addWord sum t).toNat = fold16 (sum.toNat + t.toNat) := by
  have hsum := sum.toNat_lt
  have ht := t.toNat_lt
  have hadd : (sum + t).toNat = (sum.toNat + t.toNat) % 65536 := UInt16.toNat_add sum t
  rw [← fold16_carry, addWord]
  -- the sum is below the summand exactly when it wrapped
  by_cases hcarry : sum.toNat + t.toNat < 65536
  · have hle : ¬sum + t < t := by
      rw [UInt16.lt_iff_toNat_lt, hadd]
      omega
    rw [if_neg hle, hadd, fold16_of_lt (by omega)]
    omega
  · have hlt : sum + t < t := by
      rw [UInt16.lt_iff_toNat_lt, hadd]
      omega
    rw [if_pos hlt, UInt16.toNat_add, hadd, fold16_of_lt (by omega)]
    have hone : UInt16.toNat 1 = 1 := rfl
    omega

/-- The word of two bytes. -/
private theorem pair_toNat (a b : UInt8) :
    ((a.toUInt16 <<< 8) + b.toUInt16).toNat = a.toNat * 256 + b.toNat := by
  have ha := a.toNat_lt
  have hb := b.toNat_lt
  have hshift : (a.toUInt16 <<< 8).toNat = a.toNat * 256 := by
    rw [UInt16.toNat_shiftLeft, UInt8.toNat_toUInt16, Nat.shiftLeft_eq]
    have height : UInt16.toNat 8 % 16 = 8 := rfl
    rw [height]
    omega
  rw [UInt16.toNat_add, hshift, UInt8.toNat_toUInt16]
  omega

/-- `chksum` is the one's complement sum of what it starts from and the words. -/
private theorem chksum_toNat (sum : UInt16) (data : List UInt8) :
    (chksum sum data).toNat = fold16 (sum.toNat + wordSum data) := by
  induction sum, data using chksum.induct with
  | case1 sum a b data ih =>
    have hcons : wordSum (a :: b :: data) = a.toNat * 256 + b.toNat + wordSum data := by
      rw [wordSum, words, List.sum_cons, wordSum]
    rw [chksum, ih, addWord_toNat, fold16_add_fold16, pair_toNat, hcons, Nat.add_assoc]
  -- a last odd byte is the high one of its word
  | case2 sum a =>
    have hlast : wordSum [a] = a.toNat * 256 := by simp [wordSum, words]
    have hpair : ((a.toUInt16 <<< 8) + 0).toNat = a.toNat * 256 := by
      have hzero := pair_toNat a 0
      rwa [UInt8.toNat_zero, Nat.add_zero] at hzero
    rw [chksum, addWord_toNat, hlast, hpair]
  | case3 sum =>
    have hnil : wordSum [] = 0 := rfl
    have hlt := sum.toNat_lt
    rw [chksum, hnil, Nat.add_zero, fold16_of_lt (by omega)]

/-- A sum that is not of zeros only gets its complement. -/
private theorem complementSum_toNat {sum : UInt16} {n : Nat} (hsum : sum.toNat = fold16 n)
    (h : n ≠ 0) :
    (complementSum sum).toNat = 65535 - fold16 n := by
  have hne : sum ≠ 0 := by
    rintro rfl
    exact h (fold16_eq_zero_iff.mp hsum.symm)
  have hmax : UInt16.size - 1 = 65535 := by decide
  simp only [complementSum, if_neg hne, UInt16.toNat_not, hmax, hsum]

/-! ### Words in memory -/

/-- A field in network order counts as its value. -/
private theorem wordSum_htonsBytes (v : UInt16) : wordSum (htonsBytes v) = v.toNat := by
  have hv := v.toNat_lt
  rw [htonsBytes, wordSum_pair, UInt16.toNat_toUInt8, UInt16.toNat_toUInt8, UInt16.toNat_shiftRight,
    Nat.shiftRight_eq_div_pow]
  have height : UInt16.toNat 8 % 16 = 8 := rfl
  rw [height]
  omega

/-- Masking the low byte is truncation. -/
private theorem lowByte_eq (v : UInt16) : (v &&& 0xff).toUInt8 = v.toUInt8 := by
  apply UInt8.toNat_inj.mp
  have hlow : (v &&& 0xff).toNat = v.toNat % 256 := by
    rw [UInt16.toNat_and]
    exact Nat.and_two_pow_sub_one_eq_mod v.toNat 8
  rw [UInt16.toNat_toUInt8, UInt16.toNat_toUInt8, hlow, Nat.mod_mod]

/-- A word that is stored where there is a zero adds to the sum. -/
private theorem wordSum_store {m : Mem} {start k : Nat} (r : Nat) (v : UInt16) (hk : k % 2 = 0)
    (hzero : bytesAt m (start + k) 2 = [0, 0]) :
    wordSum (bytesAt (writeBytes m (start + k) (htonsBytes v)) start (k + (2 + r))) =
      wordSum (bytesAt m start (k + (2 + r))) + v.toNat := by
  have hlen : (bytesAt m start k).length % 2 = 0 := by rw [length_bytesAt, hk]
  have htwo : (htonsBytes v).length = 2 := rfl
  have heven : (htonsBytes v).length % 2 = 0 := by rw [htwo]
  rw [bytesAt_add, bytesAt_add, bytesAt_add m, bytesAt_add m, bytesAt_writeBytes_before m _ (by omega),
    bytesAt_writeBytes_eq m htwo, bytesAt_writeBytes_after m r _ (by omega), hzero,
    wordSum_append _ hlen, wordSum_append _ hlen, wordSum_append _ heven,
    wordSum_append (l := [0, 0]) _ rfl, wordSum_htonsBytes]
  have hnone : wordSum [0, 0] = 0 := rfl
  omega

/-! ### The response -/

/-- The pseudo header of the datagram. -/
def pseudoHeader (out : Mem) : List UInt8 :=
  bytesAt out ofsSrcipaddr 8 ++ [0, 17] ++ bytesAt out ofsUdplen 2

/-- A packet with a message of `n` bytes of data whose checksums are right. -/
structure Checksummed (out : Mem) (n : Nat) : Prop where
  ip : onesSum (bytesAt out ofsVhl uipIphLen) = 0xffff
  udplen : wordSum (bytesAt out ofsUdplen 2) = 28 + n
  udp : bytesAt out ofsUdpchksum 2 = [0, 0] ∨
    onesSum (pseudoHeader out ++ bytesAt out ofsSrcport (28 + n)) = 0xffff

variable {ethmac pktbuf pkt m : Mem} {len : UInt16}

/-- Where the complement of a sum is stored, it is all ones. -/
private theorem fold16_store {sum : UInt16} {n s : Nat} (hsum : sum.toNat = fold16 n) (h : n ≠ 0)
    (hs : s = n + (complementSum sum).toNat) : fold16 s = 0xffff := by
  rw [hs, complementSum_toNat hsum h]
  exact fold16_add_complement n

/-- The sum over the IP header. -/
theorem onesSum_ipPacket (hlen : len.toNat ≠ 0) :
    onesSum (bytesAt (ipPacket ethmac pktbuf pkt len) ofsVhl uipIphLen) = 0xffff := by
  simp only [ipPacket]
  generalize hm : writeBytes _ ofsIpchksum [0, 0] = m
  have hzero : bytesAt m (ofsVhl + 10) 2 = [0, 0] := by
    rw [← hm]
    exact bytesAt_writeBytes_self _ ofsIpchksum [0, 0]
  have hword : wordSum (bytesAt m ofsLen 2) = len.toNat := by
    have hbytes : bytesAt m ofsLen 2 = [(len >>> 8).toUInt8, (len &&& 0xff).toUInt8] := by
      rw [← hm, bytesAt_writeBytes_before _ _ (by decide), bytesAt_writeBytes_before _ _ (by decide),
        bytesAt_writeBytes_before _ _ (by decide)]
      exact bytesAt_writeBytes_self _ ofsLen [_, _]
    rw [hbytes, lowByte_eq]
    exact wordSum_htonsBytes len
  -- the length word is not zero, so the sum is not, and its complement is stored as it is
  have hne : wordSum (bytesAt m ofsVhl uipIphLen) ≠ 0 := by
    have hadd : bytesAt m ofsVhl uipIphLen =
        bytesAt m ofsVhl 2 ++ (bytesAt m ofsLen 2 ++ bytesAt m 18 16) := by
      have hall : bytesAt m ofsVhl uipIphLen = bytesAt m ofsVhl 2 ++ bytesAt m ofsLen (2 + 16) :=
        bytesAt_add m ofsVhl 2 18
      rw [bytesAt_add] at hall
      exact hall
    rw [hadd, wordSum_append _ (by rw [length_bytesAt]), wordSum_append _ (by rw [length_bytesAt]),
      hword]
    omega
  have hsum := chksum_toNat 0 (bytesAt m ofsVhl uipIphLen)
  rw [UInt16.toNat_zero, Nat.zero_add] at hsum
  exact fold16_store hsum hne (wordSum_store 8 _ rfl hzero)

/-- `udpPacket` does not change what is in front of the UDP header. -/
theorem bytesAt_udpPacket_before {start n : Nat} (h : start + n ≤ ofsSrcport) :
    bytesAt (udpPacket m pkt len) start n = bytesAt m start n := by
  have hport : ofsSrcport = 34 := rfl
  simp only [udpPacket]
  rw [bytesAt_writeBytes_before _ _ (by rw [ofsUdpchksum]; omega),
    bytesAt_writeBytes_before _ _ (by rw [ofsUdpchksum]; omega),
    bytesAt_writeBytes_before _ _ (by rw [ofsUdplen]; omega),
    bytesAt_writeBytes_before _ _ (by rw [ofsDestport]; omega), bytesAt_writeBytes_before _ _ h]

/-- The length of the datagram. -/
theorem wordSum_udplen : wordSum (bytesAt (udpPacket m pkt len) ofsUdplen 2) = len.toNat := by
  simp only [udpPacket]
  rw [bytesAt_writeBytes_before _ _ (by decide), bytesAt_writeBytes_before _ _ (by decide),
    bytesAt_writeBytes_eq _ (show (htonsBytes len).length = 2 from rfl), wordSum_htonsBytes]

/-- The sum over the pseudo header and the datagram. -/
theorem onesSum_udpPacket {r : Nat} (hlen : len.toNat = 6 + (2 + r)) (hlt : len.toNat + 17 < 65536) :
    onesSum (pseudoHeader (udpPacket m pkt len) ++
      bytesAt (udpPacket m pkt len) ofsSrcport len.toNat) = 0xffff := by
  have heven : (pseudoHeader (udpPacket m pkt len)).length % 2 = 0 := by
    rw [pseudoHeader, List.length_append, List.length_append, length_bytesAt, length_bytesAt]
    rfl
  -- the addresses, the protocol and the length
  have hpseudo : wordSum (pseudoHeader (udpPacket m pkt len)) =
      wordSum (bytesAt m ofsSrcipaddr 8) + 17 + len.toNat := by
    rw [pseudoHeader, wordSum_append _ (by rw [List.length_append, length_bytesAt]; rfl),
      wordSum_append _ (by rw [length_bytesAt]), wordSum_udplen,
      bytesAt_udpPacket_before (by decide), wordSum_pair]
    rfl
  rw [onesSum, wordSum_append _ heven, hpseudo]
  simp only [udpPacket]
  generalize hm : writeBytes _ ofsUdpchksum [0, 0] = m'
  have hzero : bytesAt m' (ofsSrcport + 6) 2 = [0, 0] := by
    rw [← hm]
    exact bytesAt_writeBytes_self _ ofsUdpchksum [0, 0]
  have haddrs : bytesAt m' ofsSrcipaddr 8 = bytesAt m ofsSrcipaddr 8 := by
    rw [← hm, bytesAt_writeBytes_before _ _ (by decide), bytesAt_writeBytes_before _ _ (by decide),
      bytesAt_writeBytes_before _ _ (by decide), bytesAt_writeBytes_before _ _ (by decide)]
  have hstart : (len + uipProtoUdp).toNat = len.toNat + 17 := by
    rw [UInt16.toNat_add]
    exact Nat.mod_eq_of_lt hlt
  -- the sum goes on from that of the addresses, which begins with length and protocol
  have hsum := chksum_toNat (chksum (len + uipProtoUdp) (bytesAt m' ofsSrcipaddr 8))
    (bytesAt m' ofsSrcport len.toNat)
  have haddrSum := chksum_toNat (len + uipProtoUdp) (bytesAt m' ofsSrcipaddr 8)
  rw [haddrSum, fold16_add_fold16, hstart, haddrs] at hsum
  rw [haddrs]
  refine fold16_store hsum (by omega) ?_
  have hstore := wordSum_store r (complementSum (chksum (chksum (len + uipProtoUdp)
    (bytesAt m ofsSrcipaddr 8)) (bytesAt m' ofsSrcport len.toNat))) (show 6 % 2 = 0 from rfl) hzero
  rw [← hlen] at hstore
  have hofs : ofsSrcport + 6 = ofsUdpchksum := rfl
  rw [hofs] at hstore
  rw [hstore]
  omega

/-- Every response has valid checksums, whatever the request and the message are. -/
theorem eadSendPacketClone_checksummed (ethmac pktbuf pkt : Mem) (h : msgLenOf pktbuf ≤ 1500) :
    Checksummed (eadSendPacketClone ethmac pktbuf pkt) (msgLenOf pktbuf) := by
  have hlen : (UInt16.ofNat (sizeofIpPacket + msgLenOf pktbuf)).toNat = 48 + msgLenOf pktbuf :=
    UInt16.toNat_ofNat_of_lt' (by rw [sizeofIpPacket, UInt16.size]; omega)
  -- the UDP length is the IP length less the IP header
  have hudp : (UInt16.ofNat (sizeofIpPacket + msgLenOf pktbuf) - UInt16.ofNat uipIphLen).toNat =
      28 + msgLenOf pktbuf := by
    have hhead : (UInt16.ofNat uipIphLen).toNat = 20 := rfl
    rw [UInt16.toNat_sub_of_le _ _ (by rw [UInt16.le_iff_toNat_le, hlen, hhead]; omega), hlen, hhead]
    omega
  rw [eadSendPacketClone]
  constructor
  · rw [bytesAt_udpPacket_before (by decide)]
    exact onesSum_ipPacket (by omega)
  · rw [wordSum_udplen, hudp]
  · rw [← hudp]
    exact .inr (onesSum_udpPacket (r := 20 + msgLenOf pktbuf) (by omega) (by omega))

/-- A message with three bytes of data. -/
theorem eadSendPacketClone_checksummed_three :
    Checksummed (eadSendPacketClone (fun _ => 2) (fun i => if i = 49 then 3 else 0) (fun _ => 7)) 3 :=
  eadSendPacketClone_checksummed (fun _ => 2) (fun i => if i = 49 then 3 else 0) (fun _ => 7) (by decide)

end HandsomeMod.Native.Ead
