import UBoot.Net.Frames

namespace UBoot.Net.UdpBounds

open Lib.Memory Frames

/-- `NetReceive` takes the frame for an IP datagram, with the header at `ip`, and accepts it. -/
def Datagram (n : Host) (m : Mem) (len ip : ℕ) : Prop :=
  etherHdrSize ≤ len ∧ ∃ rest vlanid, etherType n m len = some (protIp, ip, rest, vlanid) ∧
    vlanMatch n vlanid ∧ ipAccepted n m ip rest

/-- The protocol of the datagram at `ip`. -/
def ipP (m : Mem) (ip : ℕ) : ℕ := (m (ip + 9)).toNat

/-- The total length of the datagram at `ip`. -/
def ipLen (m : Mem) (ip : ℕ) : ℕ := load16 m (ip + 2)

/-- The length of the IP header at `ip`, options included. -/
def ipHeaderLen (m : Mem) (ip : ℕ) : ℕ := 4 * ((m ip).toNat % 16)

/-- The length in the UDP header that stands behind the IP header at `ip`. -/
def udpLen (m : Mem) (ip : ℕ) : ℕ := load16 m (ip + ipHeaderLen m ip + 4)

/-- What the packet handler relies on: `pkt` and `l` are bytes of the frame and of the datagram,
as many as its UDP payload has. -/
structure Inside (m : Mem) (len ip pkt : ℕ) (l : ℤ) : Prop where
  nonneg : 0 ≤ l
  frame : pkt + l ≤ len
  start : ip ≤ pkt
  datagram : pkt + l ≤ ip + ipLen m ip
  payload : l = udpLen m ip - 8

/-- The comparisons of lengths that `NetReceive` does not make. -/
structure LengthsAgree (m : Mem) (ip : ℕ) : Prop where
  header : 8 ≤ load16 m (ip + 24)
  datagram : ipHdrSizeNoUdp + load16 m (ip + 24) ≤ ipLen m ip
  options : load16 m (ip + 24) = udpLen m ip

variable {n : Host} {m : Mem} {len ip : ℕ}

theorem etherType_rest {x vlanid : ℕ} {rest : ℤ}
    (h : etherType n m len = some (x, ip, rest, vlanid)) : ip + rest = len := by
  simp only [etherType] at h
  split_ifs at h
  all_goals
    simp only [Option.some.injEq, Prod.mk.injEq] at h
    obtain ⟨-, rfl, rfl, -⟩ := h
    omega

theorem ipLen_le_of_ipAccepted {rest : ℤ} (h : ipAccepted n m ip rest) : ipLen m ip ≤ rest := by
  simp only [ipAccepted, Bool.and_eq_true, Bool.not_eq_true', decide_eq_false_iff_not] at h
  obtain ⟨⟨⟨⟨⟨-, h⟩, -⟩, -⟩, -⟩, -⟩ := h
  simpa [ipLen] using h

theorem Datagram.ipLen_le (h : Datagram n m len ip) : ip + ipLen m ip ≤ len := by
  obtain ⟨-, rest, vlanid, hx, -, ha⟩ := h
  have hrest := etherType_rest hx
  have hle := ipLen_le_of_ipAccepted ha
  omega

theorem netReceive_of_datagram (h : Datagram n m len ip) :
    ∃ rest, ipAccepted n m ip rest ∧ netReceive n m len = (n, receiveIp n m ip rest) := by
  obtain ⟨hlen, rest, vlanid, hx, hv, ha⟩ := h
  have harp : protIp ≠ protArp := by decide
  have hrarp : protIp ≠ protRarp := by decide
  exact ⟨rest, ha, by simp [netReceive, hlen.not_gt, hx, hv, harp, hrarp]⟩

theorem netReceive_udp (h : Datagram n m len ip) (hu : ipP m ip = ipprotoUdp) :
    netReceive n m len = (n, [.handler (some (ip + ipHdrSize)) (load16 m (ip + 22))
      (load16 m (ip + 20)) ((load16 m (ip + 24) : ℤ) - 8)]) := by
  obtain ⟨rest, ha, hr⟩ := netReceive_of_datagram h
  have hp : (m (ip + 9)).toNat = ipprotoUdp := hu
  have hne : ipprotoUdp ≠ ipprotoIcmp := by decide
  simp [hr, receiveIp, ha, hp, hne]

theorem receiveArp_handler {rest : ℤ} {p : Option ℕ} {d s : ℕ} {l : ℤ} :
    Out.handler p d s l ∉ (receiveArp n m ip rest).2 := by
  unfold receiveArp
  dsimp only
  split_ifs
  all_goals simp

theorem receiveRarp_handler {rest : ℤ} {pkt d s : ℕ} {l : ℤ} :
    Out.handler (some pkt) d s l ∉ (receiveRarp n m ip rest).2 := by
  unfold receiveRarp
  split_ifs
  all_goals simp

theorem datagram_of_handler {pkt d s : ℕ} {l : ℤ}
    (h : Out.handler (some pkt) d s l ∈ (netReceive n m len).2) : ∃ ip, Datagram n m len ip := by
  unfold netReceive at h
  split at h
  · simp at h
  next hlen =>
  split at h
  · simp at h
  next x ip rest vlanid hx =>
  split_ifs at h with hv harp hrarp hip
  · simp at h
  · exact absurd h receiveArp_handler
  · exact absurd h receiveRarp_handler
  · subst hip
    have ha : ipAccepted n m ip rest := by
      by_contra hc
      simp [receiveIp, hc] at h
    exact ⟨ip, by omega, rest, vlanid, hx, by simpa using hv, ha⟩
  · simp at h

theorem Datagram.unique {ip' : ℕ} (h : Datagram n m len ip) (h' : Datagram n m len ip') :
    ip = ip' := by
  obtain ⟨-, rest, vlanid, hx, -⟩ := h
  obtain ⟨-, rest', vlanid', hx', -⟩ := h'
  rw [hx] at hx'
  simp only [Option.some.injEq, Prod.mk.injEq] at hx'
  exact hx'.2.1

/-- The packets handed out are received datagrams, and of a UDP datagram the payload. -/
def HandsOutReceived (n : Host) (m : Mem) (len : ℕ) : Prop :=
  ∀ pkt d s l, Out.handler (some pkt) d s l ∈ (netReceive n m len).2 →
    ∃ ip, Datagram n m len ip ∧ (ipP m ip = ipprotoUdp → Inside m len ip pkt l)

/-- The frame always holds the datagram; what decides is whether the datagram holds what its UDP
header announces, and whether that header stands where `NetReceive` looks for it. -/
theorem netReceive_inside_iff (n : Host) (m : Mem) (len : ℕ) :
    HandsOutReceived n m len ↔
      ∀ ip, Datagram n m len ip → ipP m ip = ipprotoUdp → LengthsAgree m ip := by
  constructor
  · intro h ip hd hu
    obtain ⟨ip', hd', hin⟩ := h (ip + ipHdrSize) (load16 m (ip + 22)) (load16 m (ip + 20))
      ((load16 m (ip + 24) : ℤ) - 8) (by simp [netReceive_udp hd hu])
    obtain rfl := hd.unique hd'
    obtain ⟨hnn, -, -, hdat, hpay⟩ := hin hu
    simp only [ipHdrSize] at hdat
    exact ⟨by omega, by simp only [ipHdrSizeNoUdp]; omega, by omega⟩
  · intro h pkt d s l hmem
    obtain ⟨ip, hd⟩ := datagram_of_handler hmem
    refine ⟨ip, hd, fun hu ↦ ?_⟩
    obtain ⟨hhdr, hdat, hopt⟩ := h ip hd hu
    have hle := hd.ipLen_le
    simp only [netReceive_udp hd hu, List.mem_singleton, Out.handler.injEq,
      Option.some.injEq] at hmem
    obtain ⟨rfl, -, -, rfl⟩ := hmem
    simp only [ipHdrSizeNoUdp] at hdat
    exact ⟨by omega, by simp only [ipHdrSize]; omega, by omega,
      by simp only [ipHdrSize]; omega, by omega⟩

/-- A host at 10.0.0.1. -/
def host : Host where
  netOurIP := 0x0a000001
  netServerIP := 0
  netOurEther := [2, 0, 0, 0, 0, 1]
  netServerEther := netEtherNullAddr
  netOurVLAN := 0xffff
  netOurNativeVLAN := 0xffff
  netOurSubnetMask := 0
  netOurGatewayIP := 0
  netIPID := 0
  netTxPacket := fun _ ↦ 0
  netArpWaitPacketIP := 0
  netArpWaitReplyIP := 0
  netArpWaitPacketMAC := none
  netArpWaitTxPacket := fun _ ↦ 0
  netArpWaitTxPacketSize := 0

/-- A datagram of 28 bytes to port 69, whose UDP header has the length 0. -/
def shortUdp : List UInt8 :=
  [2, 0, 0, 0, 0, 1, 2, 0, 0, 0, 0, 2, 0x08, 0x00,
    0x45, 0, 0, 28, 0, 0, 0, 0, 64, 17, 0x66, 0xcf, 10, 0, 0, 2, 10, 0, 0, 1,
    4, 0, 0, 69, 0, 0, 0, 0]

theorem shortUdp_datagram : Datagram host (fun k ↦ shortUdp.getD k 0) shortUdp.length 14 :=
  ⟨by decide, 28, vlanNone, by decide, by decide, by decide⟩

/-- The handler is told that the payload has -8 bytes, which is 2^32 - 8 as `unsigned`. -/
theorem netReceive_shortUdp :
    ¬ HandsOutReceived host (fun k ↦ shortUdp.getD k 0) shortUdp.length := by
  intro h
  obtain ⟨ip, hd, hin⟩ := h 42 69 1024 (-8) (by decide)
  obtain rfl := hd.unique shortUdp_datagram
  have hnn := (hin (by decide)).nonneg
  omega

end UBoot.Net.UdpBounds
