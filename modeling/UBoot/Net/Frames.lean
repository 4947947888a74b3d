import Mathlib.Algebra.GroupWithZero.Nat
import Mathlib.Data.Int.Basic
import UBoot.Lib.Memory

namespace UBoot.Net.Frames

open Lib.Memory

def etherHdrSize : ℕ := 14

def e802HdrSize : ℕ := 22

def vlanEtherHdrSize : ℕ := 18

def protIp : ℕ := 0x0800

def protArp : ℕ := 0x0806

def protRarp : ℕ := 0x8035

def protVlan : ℕ := 0x8100

def ipprotoIcmp : ℕ := 1

def ipprotoUdp : ℕ := 17

/-- `sizeof (IP_t)`, with the UDP header. -/
def ipHdrSize : ℕ := 28

def ipHdrSizeNoUdp : ℕ := 20

def arpHdrSize : ℕ := 28

def vlanNone : ℕ := 4095

/-- `id & VLAN_IDMASK`. -/
def vlanIdMask (id : ℕ) : ℕ := id % 4096

def netBcastAddr : List UInt8 := List.replicate 6 0xff

def netEtherNullAddr : List UInt8 := List.replicate 6 0

/-- The variables of `net.c` of a host that sending and receiving work on. `netArpWaitPacketMAC` is the
address in the caller's variable that it points to. -/
structure Host where
  netOurIP : ℕ
  netServerIP : ℕ
  netOurEther : List UInt8
  netServerEther : List UInt8
  netOurVLAN : ℕ
  netOurNativeVLAN : ℕ
  netOurSubnetMask : ℕ
  netOurGatewayIP : ℕ
  netIPID : ℕ
  netTxPacket : Mem
  netArpWaitPacketIP : ℕ
  netArpWaitReplyIP : ℕ
  netArpWaitPacketMAC : Option (List UInt8)
  netArpWaitTxPacket : Mem
  netArpWaitTxPacketSize : ℕ

/-- What a function does outside: a frame given to `eth_send`, or a call of the packet handler,
where `pkt` is the offset in the received frame, `none` the null pointer, and `len` is not yet
converted to `unsigned`. -/
inductive Out
  | send (frame : List UInt8)
  | handler (pkt : Option ℕ) (dport sport : ℕ) (len : ℤ)
deriving DecidableEq

/-- `myvlanid` of `NetSetEther`, `NetEthHdrSize` and `NetReceive`. -/
def myvlanid (vlan : ℕ) : ℕ := if vlan = 0xffff then vlanNone else vlan

def netEthHdrSize (n : Host) : ℕ :=
  if vlanIdMask (myvlanid n.netOurVLAN) = vlanNone then etherHdrSize else vlanEtherHdrSize

/-- The two `while` and folding lines, for at most 65536 words. -/
def netCksum (m : Mem) (ptr len : ℕ) : ℕ :=
  let xsum := ((List.range len).map fun i ↦ load16 m (ptr + 2 * i)).sum
  let xsum := xsum % 65536 + xsum / 65536
  let xsum := xsum % 65536 + xsum / 65536
  xsum % 65536

def netCksumOk (m : Mem) (ptr len : ℕ) : Bool := (netCksum m ptr len + 1) &&& 0xfffe == 0

/-- `NetSetEther`: the memory after it and the size of the header. -/
def netSetEther (n : Host) (m : Mem) (xet : ℕ) (addr : List UInt8) (prot : ℕ) : Mem × ℕ :=
  let id := vlanIdMask (myvlanid n.netOurVLAN)
  let m := store m xet addr
  let m := store m (xet + 6) n.netOurEther
  if id = vlanNone then (store m (xet + 12) (be16 prot), etherHdrSize)
  else (store m (xet + 12) (be16 protVlan ++ be16 id ++ be16 prot), vlanEtherHdrSize)

/-- `NetSetIP`: the memory after it and the counted `NetIPID`. -/
def netSetIP (n : Host) (m : Mem) (xip dest dport sport len : ℕ) : Mem × Host :=
  let m := if len % 2 = 1 then store m (xip + ipHdrSize + len) [0] else m
  let m := store m xip
    ([0x45, 0] ++ be16 (ipHdrSize + len) ++ be16 n.netIPID ++ be16 0x4000 ++ [255, 17] ++ be16 0 ++
      be32 n.netOurIP ++ be32 dest ++ be16 sport ++ be16 dport ++ be16 (8 + len) ++ be16 0)
  -- `~` of the checksum in 16 bits
  let m := store m (xip + 10) (be16 (0xffff - netCksum m xip (ipHdrSizeNoUdp / 2)))
  (m, { n with netIPID := (n.netIPID + 1) % 2 ^ 32 })

/-- `ArpRequest`. -/
def arpRequest (n : Host) : Host × List Out :=
  let (m, pkt) := netSetEther n n.netTxPacket 0 netBcastAddr protArp
  let replyIP :=
    if n.netArpWaitPacketIP &&& n.netOurSubnetMask ≠ n.netOurIP &&& n.netOurSubnetMask ∧
        n.netOurGatewayIP ≠ 0 then n.netOurGatewayIP
    else n.netArpWaitPacketIP
  let m := store m pkt
    (be16 1 ++ be16 protIp ++ [6, 4] ++ be16 1 ++ n.netOurEther ++ be32 n.netOurIP ++
      List.replicate 6 0 ++ be32 replyIP)
  ({ n with netTxPacket := m, netArpWaitReplyIP := replyIP },
    [.send (bytes m 0 (pkt + arpHdrSize))])

/-- `NetSendUDPPacket`: its result, the variables after it and what is sent. -/
def netSendUDPPacket (n : Host) (ether : List UInt8) (dest dport sport len : ℕ) :
    ℕ × Host × List Out :=
  let dest := if dest = 0 then 0xffffffff else dest
  let ether := if dest = 0xffffffff then netBcastAddr else ether
  if ether = netEtherNullAddr then
    let (m, pkt) := netSetEther n n.netArpWaitTxPacket 0 ether protIp
    let (m, n) := netSetIP n m pkt dest dport sport len
    let m := store m (pkt + ipHdrSize) (bytes n.netTxPacket (pkt + ipHdrSize) len)
    let (n, out) := arpRequest { n with
      netArpWaitPacketIP := dest
      netArpWaitPacketMAC := some ether
      netArpWaitTxPacket := m
      netArpWaitTxPacketSize := pkt + ipHdrSize + len }
    (1, n, out)
  else
    let (m, pkt) := netSetEther n n.netTxPacket 0 ether protIp
    let (m, n) := netSetIP n m pkt dest dport sport len
    (0, { n with netTxPacket := m }, [.send (bytes m 0 (pkt + ipHdrSize + len))])

/-- Where the protocol header stands, its type, what is left of the frame and the VLAN of a frame
that has one: the `if` over `x` of `NetReceive`. -/
def etherType (n : Host) (m : Mem) (len : ℤ) : Option (ℕ × ℕ × ℤ × ℕ) :=
  let x := load16 m 12
  if x < 1514 then some (load16 m 20, e802HdrSize, len - e802HdrSize, vlanNone)
  else if x ≠ protVlan then some (x, etherHdrSize, len - etherHdrSize, vlanNone)
  else if len < vlanEtherHdrSize then none
  else if vlanIdMask n.netOurVLAN = vlanNone then none
  else some (load16 m 16, vlanEtherHdrSize, len - vlanEtherHdrSize, vlanIdMask (load16 m 14))

/-- `vlanid` is the VLAN of the host, or the host has none. -/
def vlanMatch (n : Host) (vlanid : ℕ) : Bool :=
  let mine := vlanIdMask (myvlanid n.netOurVLAN)
  let native := vlanIdMask (myvlanid n.netOurNativeVLAN)
  mine == vlanNone || (if vlanid = vlanNone then native else vlanid) == mine

/-- The `PROT_ARP` case of `NetReceive`. -/
def receiveArp (n : Host) (m : Mem) (arp : ℕ) (len : ℤ) : Host × List Out :=
  if len < arpHdrSize then (n, [])
  else if load16 m arp ≠ 1 ∨ load16 m (arp + 2) ≠ protIp ∨ m (arp + 4) ≠ 6 ∨ m (arp + 5) ≠ 4 then
    (n, [])
  else if n.netOurIP = 0 ∨ load32 m (arp + 24) ≠ n.netOurIP then (n, [])
  else if load16 m (arp + 6) = 1 then
    -- the header is built over the received one, the fields where the sender had put them
    let (m, pkt) := netSetEther n m 0 (bytes m 6 6) protArp
    let m := store m (arp + 6) (be16 2)
    let m := store m (arp + 18) (bytes m (arp + 8) 6)
    let m := store m (arp + 24) (bytes m (arp + 14) 4)
    let m := store m (arp + 8) n.netOurEther
    let m := store m (arp + 14) (be32 n.netOurIP)
    (n, [.send (bytes m 0 (pkt + arpHdrSize))])
  else if load16 m (arp + 6) = 2 then
    if n.netArpWaitPacketIP = 0 ∨ n.netArpWaitPacketMAC = none then (n, [])
    else if load32 m (arp + 14) ≠ n.netArpWaitReplyIP then (n, [])
    else
      let tx := store n.netArpWaitTxPacket 0 (bytes m (arp + 8) 6)
      ({ n with
          netArpWaitTxPacket := tx
          netArpWaitPacketIP := 0
          netArpWaitTxPacketSize := 0
          netArpWaitPacketMAC := none }, [.send (bytes tx 0 n.netArpWaitTxPacketSize)])
  else (n, [])

/-- The `PROT_RARP` case of `NetReceive`. -/
def receiveRarp (n : Host) (m : Mem) (arp : ℕ) (len : ℤ) : Host × List Out :=
  if len < arpHdrSize then (n, [])
  else if load16 m (arp + 6) ≠ 4 ∨ load16 m arp ≠ 1 ∨ load16 m (arp + 2) ≠ protIp ∨
      m (arp + 4) ≠ 6 ∨ m (arp + 5) ≠ 4 then (n, [])
  else
    ({ n with
        netOurIP := load32 m (arp + 24)
        netServerIP := if n.netServerIP = 0 then load32 m (arp + 14) else n.netServerIP
        netServerEther := bytes m (arp + 8) 6 }, [.handler none 0 0 0])

/-- The checks of the `PROT_IP` case of `NetReceive` up to the protocol. -/
def ipAccepted (n : Host) (m : Mem) (ip : ℕ) (len : ℤ) : Bool :=
  -- the first comparison is unsigned: a negative length passes it, and not the second
  !(decide (0 ≤ len) && decide (len < ipHdrSize)) && !decide (len < load16 m (ip + 2)) &&
    (m ip).toNat / 16 == 4 && load16 m (ip + 6) % 0x2000 == 0 &&
    netCksumOk m ip (ipHdrSizeNoUdp / 2) &&
    (n.netOurIP == 0 || load32 m (ip + 16) == n.netOurIP || load32 m (ip + 16) == 0xffffffff)

/-- The `PROT_IP` case of `NetReceive`. -/
def receiveIp (n : Host) (m : Mem) (ip : ℕ) (len : ℤ) : List Out :=
  if !ipAccepted n m ip len then []
  else if (m (ip + 9)).toNat = ipprotoIcmp then
    -- the redirect is printed, the echo reply is the answer to a ping
    if m (ip + 20) = 0 then [.handler (some ip) 0 0 0] else []
  else if (m (ip + 9)).toNat ≠ ipprotoUdp then []
  else [.handler (some (ip + ipHdrSize)) (load16 m (ip + 22)) (load16 m (ip + 20))
    ((load16 m (ip + 24) : ℤ) - 8)]

/-- `NetReceive` of the `len` bytes at `m`. -/
def netReceive (n : Host) (m : Mem) (len : ℕ) : Host × List Out :=
  if len < etherHdrSize then (n, [])
  else match etherType n m len with
    | none => (n, [])
    | some (x, ip, rest, vlanid) =>
      if !vlanMatch n vlanid then (n, [])
      else if x = protArp then receiveArp n m ip rest
      else if x = protRarp then receiveRarp n m ip rest
      else if x = protIp then (n, receiveIp n m ip rest)
      else (n, [])

end UBoot.Net.Frames
