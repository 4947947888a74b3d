import UBoot.Net.UdpBounds

namespace UBoot.Net.UdpRoundTrip

open Lib.Memory Frames UdpBounds

/-- The VLAN of the frames of a host, `vlanNone` for a host that has none. -/
def ownVlan (n : Host) : ℕ := vlanIdMask (myvlanid n.netOurVLAN)

/-- What stands between the addresses of a frame and its IP header. -/
def etherTail (n : Host) : List UInt8 :=
  if ownVlan n = vlanNone then be16 protIp else be16 protVlan ++ (be16 (ownVlan n) ++ be16 protIp)

/-- The IP and UDP header with the checksum `ck`. -/
def ipHeader (n : Host) (dest dport sport len ck : ℕ) : List UInt8 :=
  [0x45, 0] ++ be16 (ipHdrSize + len) ++ be16 n.netIPID ++ be16 0x4000 ++ [255, 17] ++ be16 ck ++
    be32 n.netOurIP ++ be32 dest ++ be16 sport ++ be16 dport ++ be16 (8 + len) ++ be16 0

/-- The words that the IP checksum adds up. -/
def headerSum (n : Host) (dest len ck : ℕ) : ℕ :=
  0x4500 + (ipHdrSize + len) % 65536 + n.netIPID % 65536 + 0x4000 + 0xff11 + ck % 65536 +
    n.netOurIP / 65536 % 65536 + n.netOurIP % 65536 + dest / 65536 % 65536 + dest % 65536

/-- The folding of `NetCksum`. -/
def fold (xsum : ℕ) : ℕ :=
  let xsum := xsum % 65536 + xsum / 65536
  (xsum % 65536 + xsum / 65536) % 65536

/-- A frame as `NetSetEther` and `NetSetIP` lay it out. -/
structure Framed (n : Host) (m : Mem) (dest dport sport len : ℕ) : Prop where
  ether : bytes m 12 (netEthHdrSize n - 12) = etherTail n
  ip : bytes m (netEthHdrSize n) ipHdrSize =
    ipHeader n dest dport sport len (0xffff - fold (headerSum n dest len 0))

variable {n r : Host} {m : Mem} {dest dport sport len ck : ℕ}

/-- The fields that are read from the header at `p`. -/
structure Fields (n : Host) (m : Mem) (p dest dport sport len ck : ℕ) : Prop where
  verHlTos : load16 m p = 0x4500
  ipLen : load16 m (p + 2) = (ipHdrSize + len) % 65536
  ipId : load16 m (p + 4) = n.netIPID % 65536
  ipOff : load16 m (p + 6) = 0x4000
  ttlP : load16 m (p + 8) = 0xff11
  ipSum : load16 m (p + 10) = ck % 65536
  srcHigh : load16 m (p + 12) = n.netOurIP / 65536 % 65536
  srcLow : load16 m (p + 14) = n.netOurIP % 65536
  dstHigh : load16 m (p + 16) = dest / 65536 % 65536
  dstLow : load16 m (p + 18) = dest % 65536
  udpSrc : load16 m (p + 20) = sport % 65536
  udpDst : load16 m (p + 22) = dport % 65536
  udpLen : load16 m (p + 24) = (8 + len) % 65536

theorem fields_of_bytes {p k : ℕ} (h : bytes m p k = ipHeader n dest dport sport len ck) :
    Fields n m p dest dport sport len ck := by
  have hword : ∀ i, i + 1 < 28 → load16 m (p + i) =
      ((ipHeader n dest dport sport len ck).getD i 0).toNat * 256 +
        ((ipHeader n dest dport sport len ck).getD (i + 1) 0).toNat := by
    intro i hi
    have hl : (ipHeader n dest dport sport len ck).length = 28 := rfl
    rw [load16_of_bytes h (by omega), List.getD_eq_getElem _ _ (by omega),
      List.getD_eq_getElem _ _ (by omega)]
  have hfirst := hword 0 (by omega)
  simp only [ipHeader, be16, be32, List.cons_append, List.nil_append, List.getD_cons_zero,
    List.getD_cons_succ, Nat.zero_add, Nat.add_zero] at hfirst hword
  refine ⟨hfirst, ?_, ?_, ?_, ?_, ?_, ?_, ?_, ?_, ?_, ?_, ?_, ?_⟩
  all_goals
    rw [hword _ (by omega)]
    simp only [List.getD_cons_zero, List.getD_cons_succ, UInt8.toNat_ofNat', UInt8.reduceToNat] <;>
      omega

theorem netCksum_eq {p : ℕ} (h : Fields n m p dest dport sport len ck) :
    netCksum m p (ipHdrSizeNoUdp / 2) = fold (headerSum n dest len ck) := by
  have hrange : List.range (ipHdrSizeNoUdp / 2) = [0, 1, 2, 3, 4, 5, 6, 7, 8, 9] := rfl
  have hsum : ((List.range (ipHdrSizeNoUdp / 2)).map fun i ↦ load16 m (p + 2 * i)).sum =
      headerSum n dest len ck := by
    simp only [hrange, List.map_cons, List.map_nil, List.sum_cons, List.sum_nil, Nat.reduceMul,
      Nat.add_zero, h.verHlTos, h.ipLen, h.ipId, h.ipOff, h.ttlP, h.ipSum, h.srcHigh, h.srcLow,
      h.dstHigh, h.dstLow, headerSum]
    omega
  simp only [netCksum, hsum, fold]

/-- Folding keeps the residue by `0xffff`, and a sum that is not zero folds to no zero. -/
theorem fold_spec {x : ℕ} (hpos : 0 < x) (hlt : x < 11 * 65536) :
    ∃ q, x = fold x + 65535 * q ∧ 0 < fold x ∧ fold x ≤ 65535 := by
  obtain ⟨y, hy⟩ : ∃ y, y = x % 65536 + x / 65536 := ⟨_, rfl⟩
  have hfold : fold x = (y % 65536 + y / 65536) % 65536 := by rw [fold, hy]
  have hyx : x = y + 65535 * (x / 65536) := by omega
  have hylt : y < 65547 := by omega
  refine ⟨x / 65536 + y / 65536, ?_, ?_, ?_⟩
  all_goals
    rw [hfold]
    omega

/-- With the complement of its checksum in place the header adds up to `0xffff`. -/
theorem fold_complement (n : Host) (dest len : ℕ) :
    fold (headerSum n dest len (0xffff - fold (headerSum n dest len 0))) = 0xffff := by
  have hpos : 0 < headerSum n dest len 0 := by
    simp only [headerSum]
    omega
  have hlt : headerSum n dest len 0 < 10 * 65536 := by
    simp only [headerSum]
    omega
  obtain ⟨q, hq, hq₀, hq₁⟩ := fold_spec hpos (by omega)
  have hck : headerSum n dest len (0xffff - fold (headerSum n dest len 0)) = 65535 * (q + 1) := by
    have hsplit : ∀ ck < 65536, headerSum n dest len ck = headerSum n dest len 0 + ck := by
      intro ck h
      simp only [headerSum, Nat.mod_eq_of_lt h]
      omega
    rw [hsplit _ (by omega)]
    omega
  obtain ⟨q', hq', hq₀', hq₁'⟩ := fold_spec (x := 65535 * (q + 1)) (by omega) (by omega)
  rw [hck]
  omega

theorem Fields.netCksumOk {p : ℕ}
    (h : Fields n m p dest dport sport len (0xffff - fold (headerSum n dest len 0))) :
    netCksumOk m p (ipHdrSizeNoUdp / 2) := by
  rw [Frames.netCksumOk, netCksum_eq h, fold_complement]
  decide

theorem Fields.load32_dst {p : ℕ} (h : Fields n m p dest dport sport len ck)
    (hdest : dest < 2 ^ 32) : load32 m (p + 16) = dest := by
  rw [load32, h.dstHigh, Nat.add_assoc, h.dstLow]
  omega

theorem Fields.ipAccepted {p : ℕ}
    (h : Fields n m p dest dport sport len (0xffff - fold (headerSum n dest len 0)))
    (hlen : len ≤ 1472) (hdest : dest < 2 ^ 32) (hip : r.netOurIP = dest ∨ dest = 0xffffffff) :
    ipAccepted r m p (ipHdrSize + len : ℕ) := by
  have hver : (m p).toNat / 16 = 4 := by
    have hw := h.verHlTos
    rw [load16] at hw
    have hb := (m (p + 1)).toNat_lt
    omega
  have hto : load32 m (p + 16) = r.netOurIP ∨ load32 m (p + 16) = 0xffffffff := by
    rw [h.load32_dst hdest]
    exact hip.imp_left Eq.symm
  have hl : load16 m (p + 2) = ipHdrSize + len := by
    rw [h.ipLen, ipHdrSize]
    omega
  have hlong : ¬ ((ipHdrSize + len : ℕ) : ℤ) < (ipHdrSize : ℕ) := by omega
  have hfit : ¬ ((ipHdrSize + len : ℕ) : ℤ) < (ipHdrSize + len : ℕ) := by omega
  simp only [Frames.ipAccepted, hl, hver, h.ipOff, h.netCksumOk, hlong, hfit]
  simpa [or_assoc] using Or.inr hto

theorem Fields.ipP {p : ℕ} (h : Fields n m p dest dport sport len ck) :
    ipP m p = ipprotoUdp := by
  have hw := h.ttlP
  rw [load16] at hw
  have hb : (m (p + 9)).toNat < 256 := (m (p + 9)).toNat_lt
  have hw' : (m (p + 8)).toNat * 256 + (m (p + 9)).toNat = 0xff11 := hw
  rw [UdpBounds.ipP, ipprotoUdp]
  omega

/-- The frame is an IP frame, of the VLAN of a host that has the one of the sender. -/
theorem Framed.etherType (h : Framed n m dest dport sport len)
    (hvlan : r.netOurVLAN = n.netOurVLAN) (k : ℕ) :
    ∃ vlanid, etherType r m (netEthHdrSize n + k : ℕ) =
      some (protIp, netEthHdrSize n, (k : ℤ), vlanid) ∧ vlanMatch r vlanid := by
  have hown : vlanIdMask (myvlanid r.netOurVLAN) = ownVlan n := by rw [hvlan, ownVlan]
  have hether := h.ether
  by_cases hnone : ownVlan n = vlanNone
  · have hsize : netEthHdrSize n = etherHdrSize := if_pos hnone
    rw [etherTail, if_pos hnone, hsize] at hether
    have hx : load16 m 12 = protIp := load16_at (a := []) (b := []) hether
    refine ⟨vlanNone, ?_, by simp [vlanMatch, hown, hnone]⟩
    have hrest : ((etherHdrSize + k : ℕ) : ℤ) - etherHdrSize = k := by omega
    simp only [Frames.etherType, hx, hsize]
    rw [if_neg (by decide), if_pos (by decide), hrest]
  · have hsize : netEthHdrSize n = vlanEtherHdrSize := if_neg hnone
    rw [etherTail, if_neg hnone, hsize] at hether
    have hx : load16 m 12 = protVlan := load16_at (a := []) hether
    have htag : load16 m 14 = ownVlan n % 65536 := load16_at (a := be16 protVlan) hether
    have htype : load16 m 16 = protIp :=
      load16_at (a := be16 protVlan ++ be16 (ownVlan n)) (b := []) hether
    have hid : vlanIdMask (load16 m 14) = ownVlan n := by
      have hlt : ownVlan n < 4096 := Nat.mod_lt _ (by omega)
      rw [htag, vlanIdMask]
      omega
    have hactive : vlanIdMask r.netOurVLAN ≠ vlanNone := by
      intro hc
      apply hnone
      rw [← hown, myvlanid]
      split
      · rfl
      · exact hc
    refine ⟨ownVlan n, ?_, by simp [vlanMatch, hown, hnone]⟩
    have hrest : ((vlanEtherHdrSize + k : ℕ) : ℤ) - vlanEtherHdrSize = k := by omega
    have hlong : ¬ ((vlanEtherHdrSize + k : ℕ) : ℤ) < vlanEtherHdrSize := by omega
    simp only [Frames.etherType, hx, hsize, htype, hid]
    rw [if_neg (by decide), if_neg (by decide), if_neg hlong, if_neg hactive, hrest]

theorem etherHdrSize_le (n : Host) : etherHdrSize ≤ netEthHdrSize n := by
  rw [netEthHdrSize]
  split
  all_goals decide

/-- The receiving half: a frame laid out by the sender reaches the packet handler. -/
theorem Framed.netReceive (h : Framed n m dest dport sport len)
    (hvlan : r.netOurVLAN = n.netOurVLAN) (hip : r.netOurIP = dest ∨ dest = 0xffffffff)
    (hdest : dest < 2 ^ 32) (hdport : dport < 65536) (hsport : sport < 65536)
    (hlen : len ≤ 1472) :
    netReceive r m (netEthHdrSize n + (ipHdrSize + len)) =
      (r, [.handler (some (netEthHdrSize n + ipHdrSize)) dport sport len]) := by
  have hf := fields_of_bytes h.ip
  obtain ⟨vlanid, hx, hv⟩ := h.etherType hvlan (ipHdrSize + len)
  have hsize := etherHdrSize_le n
  have hd : Datagram r m (netEthHdrSize n + (ipHdrSize + len)) (netEthHdrSize n) :=
    ⟨by omega, _, vlanid, hx, hv, hf.ipAccepted hlen hdest hip⟩
  have hl : ((load16 m (netEthHdrSize n + 24) : ℕ) : ℤ) - 8 = len := by
    rw [hf.udpLen]
    omega
  rw [netReceive_udp hd hf.ipP, hl, hf.udpDst, hf.udpSrc, Nat.mod_eq_of_lt hdport,
    Nat.mod_eq_of_lt hsport]

theorem netSetEther_untagged (h : ownVlan n = vlanNone) (m : Mem) (addr : List UInt8) (prot : ℕ) :
    netSetEther n m 0 addr prot =
      (store (store (store m 0 addr) 6 n.netOurEther) 12 (be16 prot), etherHdrSize) :=
  if_pos h

theorem netSetEther_tagged (h : ownVlan n ≠ vlanNone) (m : Mem) (addr : List UInt8) (prot : ℕ) :
    netSetEther n m 0 addr prot = (store (store (store m 0 addr) 6 n.netOurEther) 12
      (be16 protVlan ++ (be16 (ownVlan n) ++ be16 prot)), vlanEtherHdrSize) :=
  if_neg h

theorem netSetEther_size (m : Mem) (addr : List UInt8) (prot : ℕ) :
    (netSetEther n m 0 addr prot).2 = netEthHdrSize n := by
  rw [netSetEther, netEthHdrSize]
  split
  all_goals rfl

theorem netSetEther_tail (m : Mem) (addr : List UInt8) :
    bytes (netSetEther n m 0 addr protIp).1 12 (netEthHdrSize n - 12) = etherTail n := by
  by_cases hnone : ownVlan n = vlanNone
  · have hsize : netEthHdrSize n = etherHdrSize := if_pos hnone
    rw [etherTail, if_pos hnone, hsize, netSetEther_untagged hnone]
    exact bytes_store _ 12 _
  · have hsize : netEthHdrSize n = vlanEtherHdrSize := if_neg hnone
    rw [etherTail, if_neg hnone, hsize, netSetEther_tagged hnone]
    exact bytes_store _ 12 _

theorem netSetEther_behind {addr : List UInt8} (haddr : addr.length = 6)
    (hown : n.netOurEther.length = 6) (m : Mem) (prot : ℕ) {k l : ℕ} (hk : netEthHdrSize n ≤ k) :
    bytes (netSetEther n m 0 addr prot).1 k l = bytes m k l := by
  by_cases hnone : ownVlan n = vlanNone
  · have hsize : netEthHdrSize n = 14 := if_pos hnone
    rw [netSetEther_untagged hnone, bytes_store_of_le _ (by rw [be16_length]; omega),
      bytes_store_of_le _ (by omega), bytes_store_of_le _ (by omega)]
  · have hsize : netEthHdrSize n = 18 := if_neg hnone
    rw [netSetEther_tagged hnone,
      bytes_store_of_le _ (by simp only [List.length_append, be16_length]; omega),
      bytes_store_of_le _ (by omega), bytes_store_of_le _ (by omega)]

theorem netSetIP_below (m : Mem) {xip k l : ℕ} (h : k + l ≤ xip) :
    bytes (netSetIP n m xip dest dport sport len).1 k l = bytes m k l := by
  simp only [netSetIP]
  rw [bytes_store_of_lt _ _ (by omega), bytes_store_of_lt _ _ h]
  split
  · exact bytes_store_of_lt _ _ (by omega)
  · rfl

theorem netSetIP_payload (m : Mem) (xip : ℕ) :
    bytes (netSetIP n m xip dest dport sport len).1 (xip + ipHdrSize) len =
      bytes m (xip + ipHdrSize) len := by
  simp only [netSetIP]
  rw [bytes_store_of_le _ (by simp [ipHdrSize]), bytes_store_of_le _ (by simp [ipHdrSize])]
  split
  · exact bytes_store_of_lt _ _ (by omega)
  · rfl

theorem netSetIP_header (m : Mem) (xip : ℕ) :
    bytes (netSetIP n m xip dest dport sport len).1 xip ipHdrSize =
      ipHeader n dest dport sport len (0xffff - fold (headerSum n dest len 0)) := by
  obtain ⟨m₀, hm₀⟩ : ∃ m₀, m₀ = if len % 2 = 1 then store m (xip + ipHdrSize + len) [0] else m :=
    ⟨_, rfl⟩
  have hstore : bytes (store m₀ xip (ipHeader n dest dport sport len 0)) xip ipHdrSize =
      ipHeader n dest dport sport len 0 := bytes_store m₀ xip _
  have hck := netCksum_eq (fields_of_bytes hstore)
  have hset : (netSetIP n m xip dest dport sport len).1 =
      store (store m₀ xip (ipHeader n dest dport sport len 0)) (xip + 10)
        (be16 (0xffff - fold (headerSum n dest len 0))) := by
    rw [← hck, hm₀]
    rfl
  have hmid := bytes_store_middle (store m₀ xip (ipHeader n dest dport sport len 0)) xip 10
    (be16 (0xffff - fold (headerSum n dest len 0))) 16
  rw [hset]
  refine hmid.trans ?_
  have hlen : 10 + (be16 (0xffff - fold (headerSum n dest len 0))).length + 16 = ipHdrSize := rfl
  rw [hlen, hstore]
  rfl

/-- The sending half: what `NetSetEther` and `NetSetIP` leave at `0`. -/
theorem framed_netSetIP (m : Mem) (addr : List UInt8) :
    Framed n (netSetIP n (netSetEther n m 0 addr protIp).1 (netEthHdrSize n) dest dport sport
      len).1 dest dport sport len where
  ether := by
    have hsize : 14 ≤ netEthHdrSize n := etherHdrSize_le n
    rw [netSetIP_below _ (by omega), netSetEther_tail]
  ip := netSetIP_header _ _

theorem Framed.congr {m' : Mem} (h : Framed n m dest dport sport len)
    (heq : ∀ k, 12 ≤ k → k < netEthHdrSize n + ipHdrSize → m' k = m k) :
    Framed n m' dest dport sport len := by
  have hsize : 14 ≤ netEthHdrSize n := etherHdrSize_le n
  constructor
  · rw [← h.ether]
    exact bytes_congr fun k hk hlt ↦ heq k hk (by omega)
  · rw [← h.ip]
    exact bytes_congr fun k hk hlt ↦ heq k (by omega) hlt

/-- The address a packet to `dest` goes to: `0` is the old form of the broadcast. -/
def destination (dest : ℕ) : ℕ := if dest = 0 then 0xffffffff else dest

/-- The Ethernet address a packet to `dest` goes to, zero for one that is not known yet. -/
def etherDestination (ether : List UInt8) (dest : ℕ) : List UInt8 :=
  if destination dest = 0xffffffff then netBcastAddr else ether

/-- The frame in the buffer `m` behind `NetSetEther` and `NetSetIP`. -/
def built (n : Host) (m : Mem) (ether : List UInt8) (dest dport sport len : ℕ) : Mem :=
  (netSetIP n (netSetEther n m 0 (etherDestination ether dest) protIp).1 (netEthHdrSize n)
    (destination dest) dport sport len).1

/-- The frame that a call of `NetSendUDPPacket` gives to `eth_send`: at once, or when the reply to
its ARP request has ended the wait. -/
inductive Transmits (n : Host) (ether : List UInt8) (dest dport sport len : ℕ) (frame : List UInt8) :
    Prop
  | now {n' : Host} {out : List Out}
    (hsend : netSendUDPPacket n ether dest dport sport len = (0, n', out))
    (hout : .send frame ∈ out)
  | later {n' : Host} {out : List Out} {m : Mem} {l : ℕ}
    (hsend : netSendUDPPacket n ether dest dport sport len = (1, n', out))
    (hended : (netReceive n' m l).1.netArpWaitPacketIP = 0)
    (hout : .send frame ∈ (netReceive n' m l).2)

theorem netSendUDPPacket_now (n : Host) (dport sport len : ℕ) {ether : List UInt8}
    (h : etherDestination ether dest ≠ netEtherNullAddr) :
    (netSendUDPPacket n ether dest dport sport len).1 = 0 ∧
      (netSendUDPPacket n ether dest dport sport len).2.2 =
        [.send (bytes (built n n.netTxPacket ether dest dport sport len) 0
          (netEthHdrSize n + ipHdrSize + len))] := by
  have hsend : netSendUDPPacket n ether dest dport sport len = _ := if_neg h
  rw [hsend, built, ← netSetEther_size n.netTxPacket (etherDestination ether dest) protIp]
  exact ⟨rfl, rfl⟩

theorem netSendUDPPacket_later (n : Host) (dport sport len : ℕ) {ether : List UInt8}
    (h : etherDestination ether dest = netEtherNullAddr) :
    (netSendUDPPacket n ether dest dport sport len).1 = 1 ∧
      (netSendUDPPacket n ether dest dport sport len).2.1.netArpWaitPacketIP = destination dest ∧
      (netSendUDPPacket n ether dest dport sport len).2.1.netArpWaitTxPacket =
        store (built n n.netArpWaitTxPacket ether dest dport sport len) (netEthHdrSize n + ipHdrSize)
          (bytes n.netTxPacket (netEthHdrSize n + ipHdrSize) len) ∧
      (netSendUDPPacket n ether dest dport sport len).2.1.netArpWaitTxPacketSize =
        netEthHdrSize n + ipHdrSize + len := by
  have hsend : netSendUDPPacket n ether dest dport sport len = _ := if_pos h
  rw [hsend, built, ← netSetEther_size n.netArpWaitTxPacket (etherDestination ether dest) protIp]
  exact ⟨rfl, rfl, rfl, rfl⟩

theorem receiveArp_ended {arp : ℕ} {rest : ℤ} (hwait : n.netArpWaitPacketIP ≠ 0)
    (hended : (receiveArp n m arp rest).1.netArpWaitPacketIP = 0) :
    (receiveArp n m arp rest).2 = [.send (bytes (store n.netArpWaitTxPacket 0 (bytes m (arp + 8) 6))
      0 n.netArpWaitTxPacketSize)] := by
  unfold receiveArp at hended ⊢
  dsimp only at hended ⊢
  split_ifs at hended ⊢
  all_goals first
    | exact absurd hended hwait
    | rfl

theorem netReceive_ended {l : ℕ} (hwait : n.netArpWaitPacketIP ≠ 0)
    (hended : (netReceive n m l).1.netArpWaitPacketIP = 0) :
    ∃ mac : List UInt8, mac.length = 6 ∧ (netReceive n m l).2 =
      [.send (bytes (store n.netArpWaitTxPacket 0 mac) 0 n.netArpWaitTxPacketSize)] := by
  unfold netReceive at hended ⊢
  split at hended
  · exact absurd hended hwait
  next hlen =>
  rw [if_neg hlen]
  split at hended
  · exact absurd hended hwait
  next x arp rest vlanid hx =>
  split_ifs at hended ⊢
  · exact absurd hended hwait
  · exact ⟨_, bytes_length _ _ _, receiveArp_ended hwait hended⟩
  · refine absurd hended ?_
    unfold receiveRarp
    split_ifs
    all_goals exact hwait
  · exact absurd hended hwait
  · exact absurd hended hwait

/-- Both ways the frame carries the headers and the payload of `NetTxPacket`. -/
theorem Transmits.framed {ether frame : List UInt8} (hown : n.netOurEther.length = 6)
    (hether : ether.length = 6) (h : Transmits n ether dest dport sport len frame) :
    ∃ m, frame = bytes m 0 (netEthHdrSize n + ipHdrSize + len) ∧
      Framed n m (destination dest) dport sport len ∧
      bytes m (netEthHdrSize n + ipHdrSize) len =
        bytes n.netTxPacket (netEthHdrSize n + ipHdrSize) len := by
  have haddr : (etherDestination ether dest).length = 6 := by
    rw [etherDestination]
    split
    · rfl
    · exact hether
  have hsize : 14 ≤ netEthHdrSize n := etherHdrSize_le n
  have hbuilt (m : Mem) : Framed n (built n m ether dest dport sport len) (destination dest) dport
      sport len := framed_netSetIP m _
  by_cases hnull : etherDestination ether dest = netEtherNullAddr
  · obtain ⟨hres, hip, htx, hlen⟩ := netSendUDPPacket_later n dport sport len hnull
    cases h with
    | now hsend hout => simp [hsend] at hres
    | @later n' out m l hsend hended hout =>
      simp only [hsend] at hip htx hlen
      have hwait : n'.netArpWaitPacketIP ≠ 0 := by
        rw [hip, destination]
        split
        · decide
        · assumption
      obtain ⟨mac, hmac, heq⟩ := netReceive_ended hwait hended
      rw [heq, htx, hlen] at hout
      simp only [List.mem_singleton, Out.send.injEq] at hout
      refine ⟨_, hout, (hbuilt n.netArpWaitTxPacket).congr fun k hk hlt ↦ ?_, ?_⟩
      · rw [store_of_le _ (by omega), store_of_lt _ _ hlt]
      · rw [bytes_store_of_le _ (by omega), bytes_store_of_length _ (bytes_length _ _ _)]
  · obtain ⟨hres, heq⟩ := netSendUDPPacket_now n dport sport len hnull
    cases h with
    | now hsend hout =>
      simp only [hsend] at heq
      rw [heq] at hout
      simp only [List.mem_singleton, Out.send.injEq] at hout
      refine ⟨_, hout, hbuilt _, ?_⟩
      rw [built, netSetIP_payload, netSetEther_behind haddr hown _ _ (by omega)]
    | later hsend hended hout => simp [hsend] at hres

/-- A frame that `NetSendUDPPacket` transmits, in whatever buffer it is received, is handed to the
packet handler of the host it is sent to, once, with its ports and its payload. -/
theorem udp_round_trip (n r : Host) (ether : List UInt8) (dest dport sport len : ℕ)
    (hown : n.netOurEther.length = 6) (hether : ether.length = 6) (hdest : dest < 2 ^ 32)
    (hdport : dport < 65536) (hsport : sport < 65536) (hlen : len ≤ 1472)
    (hvlan : r.netOurVLAN = n.netOurVLAN)
    (hip : r.netOurIP = dest ∨ destination dest = 0xffffffff) (frame : List UInt8)
    (hframe : Transmits n ether dest dport sport len frame) (rx : Mem)
    (hrx : bytes rx 0 frame.length = frame) :
    netReceive r rx frame.length =
        (r, [.handler (some (netEthHdrSize n + ipHdrSize)) dport sport len]) ∧
      bytes rx (netEthHdrSize n + ipHdrSize) len =
        bytes n.netTxPacket (netEthHdrSize n + ipHdrSize) len := by
  obtain ⟨m, rfl, hm, hpay⟩ := hframe.framed hown hether
  rw [bytes_length] at hrx ⊢
  have heq (k : ℕ) (hk : k < netEthHdrSize n + ipHdrSize + len) : rx k = m k :=
    apply_eq_of_bytes_eq hrx hk
  have hip' : r.netOurIP = destination dest ∨ destination dest = 0xffffffff := by
    by_cases h₀ : dest = 0
    · exact Or.inr (if_pos h₀)
    · rwa [destination, if_neg h₀] at hip ⊢
  have hdest' : destination dest < 2 ^ 32 := by
    rw [destination]
    split
    · omega
    · exact hdest
  have hframed : Framed n rx (destination dest) dport sport len :=
    hm.congr fun k _ hk ↦ heq k (by omega)
  constructor
  · rw [Nat.add_assoc]
    exact hframed.netReceive hvlan hip' hdest' hdport hsport hlen
  · rw [← hpay]
    exact bytes_congr fun k _ hk ↦ heq k hk

/-- A host of VLAN 5. -/
def tagged : Host := { host with netOurVLAN := 5 }

/-- Another one, at 10.0.0.2. -/
def peer : Host := { tagged with netOurIP := 0x0a000002 }

/-- The buffer with a frame of three bytes to `peer`. -/
def taggedFrame : Mem := built tagged tagged.netTxPacket [2, 0, 0, 0, 0, 2] 0x0a000002 69 1024 3

theorem udp_round_trip_tagged :
    Transmits tagged [2, 0, 0, 0, 0, 2] 0x0a000002 69 1024 3 (bytes taggedFrame 0 49) ∧
      netReceive peer taggedFrame 49 = (peer, [.handler (some 46) 69 1024 3]) := by
  have hframe : Transmits tagged [2, 0, 0, 0, 0, 2] 0x0a000002 69 1024 3
      (bytes taggedFrame 0 49) := .now rfl (List.mem_singleton.mpr rfl)
  refine ⟨hframe, ?_⟩
  exact (udp_round_trip tagged peer [2, 0, 0, 0, 0, 2] 0x0a000002 69 1024 3 rfl rfl (by decide)
    (by decide) (by decide) (by decide) rfl (Or.inl rfl) _ hframe taggedFrame rfl).1

end UBoot.Net.UdpRoundTrip
