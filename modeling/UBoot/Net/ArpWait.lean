import Mathlib.Data.List.Basic
import Mathlib.Data.List.Induction
import UBoot.Net.UdpRoundTrip

namespace UBoot.Net.ArpWait

open Lib.Memory Frames UdpBounds UdpRoundTrip

/-- `ARP_TIMEOUT * CFG_HZ` and `ARP_TIMEOUT_COUNT`. -/
structure Config where
  timeout : ℕ
  count : ℕ

/-- The variables of `net.c` during a `NetLoop`. `toServer` says that `NetArpWaitPacketMAC` points to
`NetServerEther`. -/
structure State where
  host : Host
  toServer : Bool
  netArpWaitTry : ℕ
  netArpWaitTimerStart : ℕ

/-- `other` stands for what packet and timeout handlers, RARP and a restart do to the variables that
have nothing to do with the waiting packet. -/
inductive Event
  | netSendUDPPacket (toServer : Bool) (ether : List UInt8) (dest dport sport len : ℕ) (tx : Mem)
      (now : ℕ)
  | receive (m : Mem) (len : ℕ)
  | arpTimeoutCheck (now : ℕ)
  | other (n : Host)

/-- The calls of `eth_send`, and the other things `NetReceive` does. -/
inductive Site
  | arpRequest
  | udp
  | waiting
  | received
deriving DecidableEq

/-- The ARP header of a frame that gets to the `switch` over `ar_op`. -/
def arpAt (n : Host) (m : Mem) (len : ℕ) : Option ℕ :=
  if len < etherHdrSize then none
  else match etherType n m len with
    | none => none
    | some (x, arp, rest, vlanid) =>
      if !vlanMatch n vlanid then none
      else if x ≠ protArp then none
      else if rest < arpHdrSize then none
      else if load16 m arp ≠ 1 ∨ load16 m (arp + 2) ≠ protIp ∨ m (arp + 4) ≠ 6 ∨ m (arp + 5) ≠ 4 then
        none
      else if n.netOurIP = 0 ∨ load32 m (arp + 24) ≠ n.netOurIP then none
      else some arp

/-- An ARP reply addressed to `NetOurIP`. -/
def IsArpReply (n : Host) (m : Mem) (len arp : ℕ) : Prop :=
  arpAt n m len = some arp ∧ load16 m (arp + 6) = 2

/-- The reply that ends the wait. -/
def waitedFor (n : Host) (m : Mem) (arp : ℕ) : Prop :=
  load16 m (arp + 6) = 2 ∧ n.netArpWaitPacketIP ≠ 0 ∧ n.netArpWaitPacketMAC ≠ none ∧
    load32 m (arp + 14) = n.netArpWaitReplyIP

instance (n : Host) (m : Mem) (arp : ℕ) : Decidable (waitedFor n m arp) :=
  inferInstanceAs (Decidable (_ ∧ _))

variable (c : Config)

def step (s : State) : Event → State × List (Site × Out)
  | .netSendUDPPacket toServer ether dest dport sport len tx now =>
    let n := { s.host with netTxPacket := tx }
    let ether := if toServer then n.netServerEther else ether
    let (waiting, n, out) := netSendUDPPacket n ether dest dport sport len
    if waiting = 1 then (⟨n, toServer, 1, now⟩, out.map (Prod.mk .arpRequest))
    else ({ s with host := n }, out.map (Prod.mk .udp))
  | .receive m len =>
    let (n, out) := netReceive s.host m len
    match (arpAt s.host m len).filter fun arp ↦ waitedFor s.host m arp with
    | some arp =>
      -- the address goes where `NetArpWaitPacketMAC` points to
      let n := if s.toServer then { n with netServerEther := bytes m (arp + 8) 6 } else n
      ({ s with host := n }, out.map (Prod.mk .waiting))
    | none => ({ s with host := n }, out.map (Prod.mk .received))
  | .arpTimeoutCheck now =>
    if s.host.netArpWaitPacketIP = 0 then (s, [])
    else if (now + 2 ^ 32 - s.netArpWaitTimerStart) % 2 ^ 32 ≤ c.timeout then (s, [])
    else if c.count ≤ s.netArpWaitTry + 1 then
      -- `NetStartAgain` leaves the packet waiting
      ({ s with netArpWaitTry := 0 }, [])
    else
      let (n, out) := arpRequest s.host
      (⟨n, s.toServer, s.netArpWaitTry + 1, now⟩, out.map (Prod.mk .arpRequest))
  | .other n =>
    ({ s with host := { n with
        netArpWaitPacketIP := s.host.netArpWaitPacketIP
        netArpWaitReplyIP := s.host.netArpWaitReplyIP
        netArpWaitPacketMAC := s.host.netArpWaitPacketMAC
        netArpWaitTxPacket := s.host.netArpWaitTxPacket
        netArpWaitTxPacketSize := s.host.netArpWaitTxPacketSize } }, [])

/-- The address to ask for: the destination, or the gateway for another subnet. -/
def addressAsked (n : Host) (dest : ℕ) : ℕ :=
  if dest &&& n.netOurSubnetMask ≠ n.netOurIP &&& n.netOurSubnetMask ∧ n.netOurGatewayIP ≠ 0 then
    n.netOurGatewayIP
  else dest

/-- A packet that waits for the address of `asked`. -/
structure Packet where
  frame : List UInt8
  dest : ℕ
  asked : ℕ
  toServer : Bool

/-- The packet that was queued last, as long as it has not been transmitted. -/
def queue (s : State) (q : Option Packet) (e : Event) : Option Packet :=
  let (s', sent) := step c s e
  match e with
  | .netSendUDPPacket toServer _ dest _ _ _ _ _ =>
    if sent.any fun o ↦ o.1 = .arpRequest then
      some ⟨bytes s'.host.netArpWaitTxPacket 0 s'.host.netArpWaitTxPacketSize, destination dest,
        addressAsked s.host (destination dest), toServer⟩
    else q
  | .arpTimeoutCheck _ =>
    if sent.any fun o ↦ o.1 = .arpRequest then
      q.map fun p ↦ { p with asked := addressAsked s.host p.dest }
    else q
  | _ => if sent.any fun o ↦ o.1 = .waiting then none else q

/-- The state and the queue after the events. -/
def run (s : State) (es : List Event) : State × Option Packet :=
  es.foldl (fun sq e ↦ ((step c sq.1 e).1, queue c sq.1 sq.2 e)) (s, none)

/-- What the variables say about the queue. -/
def Inv (s : State) : Option Packet → Prop
  | none => s.host.netArpWaitPacketMAC = none
  | some p => s.host.netArpWaitPacketMAC ≠ none ∧ s.host.netArpWaitPacketIP = p.dest ∧ p.dest ≠ 0 ∧
      s.host.netArpWaitReplyIP = p.asked ∧ s.toServer = p.toServer ∧
      bytes s.host.netArpWaitTxPacket 0 s.host.netArpWaitTxPacketSize = p.frame ∧
      6 ≤ s.host.netArpWaitTxPacketSize

/-- The variables of the waiting packet are the same. -/
structure SameQueue (n n' : Host) : Prop where
  packetIP : n'.netArpWaitPacketIP = n.netArpWaitPacketIP
  replyIP : n'.netArpWaitReplyIP = n.netArpWaitReplyIP
  packetMAC : n'.netArpWaitPacketMAC = n.netArpWaitPacketMAC
  txPacket : n'.netArpWaitTxPacket = n.netArpWaitTxPacket
  txPacketSize : n'.netArpWaitTxPacketSize = n.netArpWaitTxPacketSize

variable {c}

theorem SameQueue.refl (n : Host) : SameQueue n n := ⟨rfl, rfl, rfl, rfl, rfl⟩

theorem Inv.congr {s s' : State} {q : Option Packet} (h : Inv s q) (hn : SameQueue s.host s'.host)
    (hto : s'.toServer = s.toServer) : Inv s' q := by
  cases q with
  | none => exact hn.packetMAC.trans h
  | some p =>
    simp only [Inv, hn.packetMAC, hn.packetIP, hn.replyIP, hn.txPacket, hn.txPacketSize, hto]
    exact h

theorem netReceive_arp {n : Host} {m : Mem} {len arp : ℕ} (h : arpAt n m len = some arp) :
    ∃ rest : ℤ, netReceive n m len = receiveArp n m arp rest ∧ ¬ rest < arpHdrSize ∧
      ¬ (load16 m arp ≠ 1 ∨ load16 m (arp + 2) ≠ protIp ∨ m (arp + 4) ≠ 6 ∨ m (arp + 5) ≠ 4) ∧
      ¬ (n.netOurIP = 0 ∨ load32 m (arp + 24) ≠ n.netOurIP) := by
  unfold arpAt at h
  unfold netReceive
  split at h
  · cases h
  next hlen =>
  rw [if_neg hlen]
  cases hx : etherType n m len with
  | none =>
    rw [hx] at h
    cases h
  | some t =>
    obtain ⟨x, arp', rest, vlanid⟩ := t
    rw [hx] at h
    dsimp only at h ⊢
    split_ifs at h with hvlan hprot hrest hfields hip
    cases h
    rw [if_neg hvlan, if_pos (not_not.mp hprot)]
    exact ⟨rest, rfl, hrest, hfields, hip⟩

/-- The reply that is waited for sends the packet and empties the queue. -/
theorem netReceive_waited {n : Host} {m : Mem} {len arp : ℕ} (h : arpAt n m len = some arp)
    (hw : waitedFor n m arp) :
    netReceive n m len =
      ({ n with
          netArpWaitTxPacket := store n.netArpWaitTxPacket 0 (bytes m (arp + 8) 6)
          netArpWaitPacketIP := 0
          netArpWaitTxPacketSize := 0
          netArpWaitPacketMAC := none },
        [.send (bytes (store n.netArpWaitTxPacket 0 (bytes m (arp + 8) 6)) 0
          n.netArpWaitTxPacketSize)]) := by
  obtain ⟨rest, heq, hrest, hfields, hip⟩ := netReceive_arp h
  obtain ⟨hop, hwait, hmac, hreply⟩ := hw
  rw [heq, receiveArp, if_neg hrest, if_neg hfields, if_neg hip, if_neg (by rw [hop]; decide),
    if_pos hop, if_neg (not_or.mpr ⟨hwait, hmac⟩), if_neg (not_not.mpr hreply)]

theorem netReceive_notWaited {n : Host} {m : Mem} {len arp : ℕ} (h : IsArpReply n m len arp)
    (hw : ¬ waitedFor n m arp) : netReceive n m len = (n, []) := by
  obtain ⟨harp, hop⟩ := h
  obtain ⟨rest, heq, hrest, hfields, hip⟩ := netReceive_arp harp
  rw [heq, receiveArp, if_neg hrest, if_neg hfields, if_neg hip, if_neg (by rw [hop]; decide),
    if_pos hop]
  by_cases hwait : n.netArpWaitPacketIP = 0 ∨ n.netArpWaitPacketMAC = none
  · rw [if_pos hwait]
  · rw [if_neg hwait, if_pos]
    intro hreply
    rw [not_or] at hwait
    exact hw ⟨hop, hwait.1, hwait.2, hreply⟩

theorem receiveArp_sameQueue {n : Host} {m : Mem} {arp : ℕ} {rest : ℤ}
    (h : ¬ rest < arpHdrSize →
      ¬ (load16 m arp ≠ 1 ∨ load16 m (arp + 2) ≠ protIp ∨ m (arp + 4) ≠ 6 ∨ m (arp + 5) ≠ 4) →
      ¬ (n.netOurIP = 0 ∨ load32 m (arp + 24) ≠ n.netOurIP) → ¬ waitedFor n m arp) :
    SameQueue n (receiveArp n m arp rest).1 := by
  unfold receiveArp
  dsimp only
  split_ifs with hrest hfields hip hreq hop hwait hreply
  all_goals try exact .refl n
  rw [not_or] at hwait
  exact absurd ⟨hop, hwait.1, hwait.2, not_not.mp hreply⟩ (h hrest hfields hip)

theorem receiveRarp_sameQueue (n : Host) (m : Mem) (arp : ℕ) (rest : ℤ) :
    SameQueue n (receiveRarp n m arp rest).1 := by
  unfold receiveRarp
  split_ifs
  all_goals exact ⟨rfl, rfl, rfl, rfl, rfl⟩

theorem netReceive_sameQueue {n : Host} {m : Mem} {len : ℕ}
    (h : ∀ arp, arpAt n m len = some arp → ¬ waitedFor n m arp) :
    SameQueue n (netReceive n m len).1 := by
  unfold netReceive
  split
  · exact .refl n
  next hlen =>
  split
  · exact .refl n
  next x arp rest vlanid hx =>
  split_ifs with hvlan hprot hrarp hprotIp
  · exact .refl n
  · apply receiveArp_sameQueue
    intro hrest hfields hip
    apply h
    rw [arpAt, if_neg hlen, hx]
    simp only
    rw [if_neg hvlan, if_neg (not_not.mpr hprot), if_neg hrest, if_neg hfields, if_neg hip]
  · exact receiveRarp_sameQueue n m arp rest
  · exact .refl n
  · exact .refl n

theorem arpRequest_queue (n : Host) :
    ∃ frame, arpRequest n = ({ n with
      netTxPacket := (arpRequest n).1.netTxPacket
      netArpWaitReplyIP := addressAsked n n.netArpWaitPacketIP }, [.send frame]) := ⟨_, rfl⟩

theorem netSendUDPPacket_queue (n : Host) {ether : List UInt8} {dest : ℕ} (dport sport len : ℕ)
    (h : etherDestination ether dest = netEtherNullAddr) :
    ∃ n' frame, netSendUDPPacket n ether dest dport sport len = (1, n', [.send frame]) ∧
      n'.netArpWaitPacketMAC ≠ none ∧ n'.netArpWaitPacketIP = destination dest ∧
      n'.netArpWaitReplyIP = addressAsked n (destination dest) ∧ 6 ≤ n'.netArpWaitTxPacketSize := by
  have hsend : netSendUDPPacket n ether dest dport sport len = _ := if_pos h
  refine ⟨_, _, hsend, Option.some_ne_none _, rfl, rfl, ?_⟩
  exact Nat.le_trans (show 6 ≤ ipHdrSize by decide)
    (Nat.le_trans (Nat.le_add_left _ _) (Nat.le_add_right _ _))

theorem netSendUDPPacket_sameQueue (n : Host) {ether : List UInt8} {dest : ℕ} (dport sport len : ℕ)
    (h : etherDestination ether dest ≠ netEtherNullAddr) :
    ∃ n' frame, netSendUDPPacket n ether dest dport sport len = (0, n', [.send frame]) ∧
      SameQueue n n' := by
  have hsend : netSendUDPPacket n ether dest dport sport len = _ := if_neg h
  exact ⟨_, _, hsend, ⟨rfl, rfl, rfl, rfl, rfl⟩⟩

theorem destination_ne_zero (dest : ℕ) : destination dest ≠ 0 := by
  rw [destination]
  split
  · decide
  · assumption

theorem any_map_site {site site' : Site} (h : site ≠ site') (out : List Out) :
    (out.map (Prod.mk site)).any (fun o ↦ o.1 = site') = false := by
  rw [List.any_eq_false]
  intro o ho
  obtain ⟨_, _, rfl⟩ := List.mem_map.mp ho
  exact fun heq ↦ h (of_decide_eq_true heq)

theorem Inv.step {s : State} {q : Option Packet} (h : Inv s q) (e : Event) :
    Inv (step c s e).1 (queue c s q e) := by
  cases e with
  | netSendUDPPacket toServer ether dest dport sport len tx now =>
    simp only [ArpWait.step, queue]
    generalize (if toServer then s.host.netServerEther else ether) = ether
    by_cases hnull : etherDestination ether dest = netEtherNullAddr
    · obtain ⟨n', frame, hsend, hmac, hip, hreply, hsize⟩ :=
        netSendUDPPacket_queue { s.host with netTxPacket := tx } dport sport len hnull
      simp only [hsend, if_true, List.map_cons, List.map_nil, List.any_cons, decide_true, Bool.true_or]
      exact ⟨hmac, hip, destination_ne_zero dest, hreply, rfl, rfl, hsize⟩
    · obtain ⟨n', frame, hsend, hsame⟩ :=
        netSendUDPPacket_sameQueue { s.host with netTxPacket := tx } dport sport len hnull
      have hdirect : ¬ (0 = 1) := by decide
      simp only [hsend, if_neg hdirect]
      rw [any_map_site (by decide), if_neg Bool.false_ne_true]
      exact h.congr ⟨hsame.packetIP, hsame.replyIP, hsame.packetMAC, hsame.txPacket,
        hsame.txPacketSize⟩ rfl
  | receive m len =>
    cases harp : (arpAt s.host m len).filter fun arp ↦ waitedFor s.host m arp with
    | some arp =>
      obtain ⟨harp', hw⟩ := Option.filter_eq_some_iff.mp harp
      simp only [ArpWait.step, queue, netReceive_waited harp' (of_decide_eq_true hw), harp,
        List.map_cons, List.map_nil, List.any_cons, decide_true, Bool.true_or, if_true, Inv]
      split <;> rfl
    | none =>
      have hsame : SameQueue s.host (netReceive s.host m len).1 := netReceive_sameQueue fun arp harp' hw ↦
        Option.filter_eq_none_iff.mp harp arp harp' (decide_eq_true hw)
      simp only [ArpWait.step, queue, harp]
      rw [any_map_site (by decide), if_neg Bool.false_ne_true]
      exact h.congr ⟨hsame.packetIP, hsame.replyIP, hsame.packetMAC, hsame.txPacket,
        hsame.txPacketSize⟩ rfl
  | arpTimeoutCheck now =>
    simp only [ArpWait.step, queue]
    split
    · exact h
    split
    · exact h
    split
    · exact h
    obtain ⟨frame, hreq⟩ := arpRequest_queue s.host
    rw [hreq]
    simp only [List.map_cons, List.map_nil, List.any_cons, decide_true, Bool.true_or, if_true]
    cases q with
    | none => exact h
    | some p =>
      obtain ⟨hmac, hip, hdest, hreply, hto, hframe, hsize⟩ := h
      exact ⟨hmac, hip, hdest, congrArg (addressAsked s.host) hip, hto, hframe, hsize⟩
  | other n => exact h.congr ⟨rfl, rfl, rfl, rfl, rfl⟩ rfl

theorem Inv.run {s : State} (h : Inv s none) (es : List Event) :
    Inv (run c s es).1 (run c s es).2 := by
  induction es using List.reverseRecOn with
  | nil => exact h
  | append_singleton es e ih =>
    rw [ArpWait.run, List.foldl_concat]
    exact ih.step e

theorem bytes_store_mac (m : Mem) {mac : List UInt8} {n : ℕ} (hmac : mac.length = 6) (hn : 6 ≤ n) :
    bytes (store m 0 mac) 0 n = mac ++ (bytes m 0 n).drop 6 := by
  obtain ⟨k, rfl⟩ := Nat.exists_eq_add_of_le hn
  rw [bytes_append, bytes_drop, bytes_store_of_length _ hmac, bytes_store_of_le]
  omega

theorem eq_receive_of_waiting {s : State} {e : Event} {o : Site × Out} (ho : o ∈ (step c s e).2)
    (hsite : o.1 = .waiting) :
    ∃ m len arp, e = .receive m len ∧ arpAt s.host m len = some arp ∧ waitedFor s.host m arp := by
  cases e with
  | netSendUDPPacket toServer ether dest dport sport len tx now =>
    simp only [ArpWait.step] at ho
    generalize (if toServer then s.host.netServerEther else ether) = ether at ho
    split at ho
    all_goals
      obtain ⟨_, _, rfl⟩ := List.mem_map.mp ho
      cases hsite
  | receive m len =>
    cases harp : (arpAt s.host m len).filter fun arp ↦ waitedFor s.host m arp with
    | none =>
      simp only [ArpWait.step, harp] at ho
      obtain ⟨_, _, rfl⟩ := List.mem_map.mp ho
      cases hsite
    | some arp =>
      obtain ⟨harp', hw⟩ := Option.filter_eq_some_iff.mp harp
      exact ⟨m, len, arp, rfl, harp', of_decide_eq_true hw⟩
  | arpTimeoutCheck now =>
    simp only [ArpWait.step] at ho
    split_ifs at ho
    · cases ho
    · cases ho
    · cases ho
    · obtain ⟨_, _, rfl⟩ := List.mem_map.mp ho
      cases hsite
  | other n => cases ho

theorem step_waited {s : State} {m : Mem} {len arp : ℕ} (harp : arpAt s.host m len = some arp)
    (hw : waitedFor s.host m arp) :
    (step c s (.receive m len)).2 = [(.waiting, .send (bytes (store s.host.netArpWaitTxPacket 0
      (bytes m (arp + 8) 6)) 0 s.host.netArpWaitTxPacketSize))] := by
  have hfilter : ((arpAt s.host m len).filter fun arp ↦ waitedFor s.host m arp) = some arp :=
    Option.filter_eq_some_iff.mpr ⟨harp, decide_eq_true hw⟩
  simp only [ArpWait.step, netReceive_waited harp hw, hfilter, List.map_cons, List.map_nil]

/-- In every run, an ARP reply to the host, from the address that was last asked for, transmits the
packet that was queued last, once, to the address in the reply; nothing else transmits it, and no
other ARP reply changes anything. -/
theorem arp_deferred (s : State) (hs : s.host.netArpWaitPacketMAC = none) (es : List Event)
    (e : Event) :
    (∀ o ∈ (step c (run c s es).1 e).2, o.1 = .waiting →
      ∃ m len arp p, e = .receive m len ∧ IsArpReply (run c s es).1.host m len arp ∧
        (run c s es).2 = some p ∧ load32 m (arp + 14) = p.asked ∧
        (step c (run c s es).1 e).2 =
          [(.waiting, .send (bytes m (arp + 8) 6 ++ p.frame.drop 6))] ∧
        (run c s (es ++ [e])).2 = none) ∧
      ∀ m len arp, e = .receive m len → IsArpReply (run c s es).1.host m len arp →
        (∀ p, (run c s es).2 = some p → load32 m (arp + 14) ≠ p.asked) →
        step c (run c s es).1 e = ((run c s es).1, []) := by
  have hinv := Inv.run (c := c) hs es
  have hlast : run c s (es ++ [e]) = ((step c (run c s es).1 e).1,
      queue c (run c s es).1 (run c s es).2 e) := by rw [ArpWait.run, List.foldl_concat]; rfl
  rw [hlast]
  generalize run c s es = sq at hinv
  obtain ⟨s, q⟩ := sq
  simp only at hinv ⊢
  constructor
  · rintro o ho hsite
    obtain ⟨m, len, arp, rfl, harp, hw⟩ := eq_receive_of_waiting ho hsite
    cases q with
    | none => exact absurd hinv hw.2.2.1
    | some p =>
      obtain ⟨-, -, -, hreply, -, hframe, hsize⟩ := hinv
      have hsent := step_waited (c := c) harp hw
      refine ⟨m, len, arp, p, rfl, ⟨harp, hw.1⟩, rfl, hw.2.2.2.trans hreply, ?_, ?_⟩
      · rw [hsent, bytes_store_mac _ (bytes_length _ _ _) hsize, hframe]
      · simp only [queue, hsent, List.any_cons, decide_true, Bool.true_or, if_true]
  · rintro m len arp rfl hreply hother
    have hw : ¬ waitedFor s.host m arp := by
      intro hw
      cases q with
      | none => exact hw.2.2.1 hinv
      | some p => exact hother p rfl (hw.2.2.2.trans hinv.2.2.2.1)
    have hfilter : ((arpAt s.host m len).filter fun arp ↦ waitedFor s.host m arp) = none := by
      rw [hreply.1, Option.filter_some, if_neg (by simpa using hw)]
    simp only [ArpWait.step, hfilter, netReceive_notWaited hreply hw, List.map_nil]

/-- No packet waits. -/
def idle : State := ⟨host, true, 0, 0⟩

/-- A call that has to ask 10.0.0.2 for its address. -/
def call : Event := .netSendUDPPacket true [] 0x0a000002 69 1024 3 host.netTxPacket 100

/-- The reply of 10.0.0.2. -/
def arpReply : Mem := fun k ↦
  ([2, 0, 0, 0, 0, 1, 2, 0, 0, 0, 0, 2, 8, 6, 0, 1, 8, 0, 6, 4, 0, 2, 2, 0, 0, 0, 0, 2, 10, 0, 0, 2,
    2, 0, 0, 0, 0, 1, 10, 0, 0, 1] : List UInt8).getD k 0

theorem arp_deferred_reply :
    ∃ p, (run ⟨5000, 5⟩ idle [call]).2 = some p ∧ p.asked = 0x0a000002 ∧
      (step ⟨5000, 5⟩ (run ⟨5000, 5⟩ idle [call]).1 (.receive arpReply 42)).2 =
        [(.waiting, .send ([2, 0, 0, 0, 0, 2] ++ p.frame.drop 6))] ∧
      (run ⟨5000, 5⟩ idle [call, .receive arpReply 42]).2 = none := by
  have hw : waitedFor (run ⟨5000, 5⟩ idle [call]).1.host arpReply 14 := by decide
  have hsent := step_waited (c := ⟨5000, 5⟩) (s := (run ⟨5000, 5⟩ idle [call]).1)
    (show arpAt _ arpReply 42 = some 14 by decide) hw
  have h := arp_deferred (c := ⟨5000, 5⟩) idle rfl [call] (.receive arpReply 42)
  obtain ⟨m, len, arp, p, he, ⟨harp, -⟩, hp, hasked, hout, hempty⟩ :=
    h.1 _ (by rw [hsent]; exact List.mem_singleton.mpr rfl) rfl
  cases he
  cases harp.symm.trans (show arpAt _ arpReply 42 = some 14 by decide)
  exact ⟨p, hp, hasked.symm, hout, hempty⟩

end UBoot.Net.ArpWait
