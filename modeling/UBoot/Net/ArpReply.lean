import UBoot.Net.ArpWait

namespace UBoot.Net.ArpReply

open Lib.Memory Frames UdpBounds UdpRoundTrip ArpWait

/-- The Ethernet header of a host: it has a tag when the host has a VLAN. -/
def etherHeader (n : Host) (dest : List UInt8) (prot : ℕ) : List UInt8 :=
  dest ++ (n.netOurEther ++
    if ownVlan n = vlanNone then be16 prot else be16 protVlan ++ (be16 (ownVlan n) ++ be16 prot))

/-- The complete ARP reply to the sender of the ARP packet at `arp`. -/
def replyPacket (n : Host) (m : Mem) (arp : ℕ) : List UInt8 :=
  be16 1 ++ (be16 protIp ++ ([6, 4] ++ (be16 2 ++ (n.netOurEther ++ (be32 n.netOurIP ++
    (bytes m (arp + 8) 6 ++ bytes m (arp + 14) 4))))))

/-- An ARP request for `NetOurIP`. -/
def IsArpRequest (n : Host) (m : Mem) (len arp : ℕ) : Prop :=
  arpAt n m len = some arp ∧ load16 m (arp + 6) = 1

/-- The only frame that is sent is the reply, to where the request came from. -/
def Answers (n : Host) (m : Mem) (len arp : ℕ) : Prop :=
  netReceive n m len = (n, [.send (etherHeader n (bytes m 6 6) protArp ++ replyPacket n m arp)])

/-- The fields of a request at `arp` made into those of a reply. -/
def replyFields (n : Host) (m : Mem) (arp : ℕ) : Mem :=
  let m := store m (arp + 6) (be16 2)
  let m := store m (arp + 18) (bytes m (arp + 8) 6)
  let m := store m (arp + 24) (bytes m (arp + 14) 4)
  let m := store m (arp + 8) n.netOurEther
  store m (arp + 14) (be32 n.netOurIP)

variable {n : Host} {m : Mem} {len arp : ℕ}

theorem netReceive_request (h : IsArpRequest n m len arp) :
    netReceive n m len = (n, [.send (bytes
      (replyFields n (netSetEther n m 0 (bytes m 6 6) protArp).1 arp) 0
        (netEthHdrSize n + arpHdrSize))]) := by
  obtain ⟨harp, hop⟩ := h
  obtain ⟨rest, heq, hrest, hfields, hip⟩ := netReceive_arp harp
  rw [heq, receiveArp, if_neg hrest, if_neg hfields, if_neg hip, if_pos hop,
    ← netSetEther_size (n := n) m (bytes m 6 6) protArp]
  rfl

theorem arpAt_cases (h : arpAt n m len = some arp) :
    arp = etherHdrSize ∨ (arp = e802HdrSize ∧ load16 m 20 = protArp) ∨
      (arp = vlanEtherHdrSize ∧ netEthHdrSize n = vlanEtherHdrSize) := by
  unfold arpAt at h
  split at h
  · cases h
  cases hx : etherType n m len with
  | none =>
    rw [hx] at h
    cases h
  | some t =>
    obtain ⟨x, ip, rest, vlanid⟩ := t
    rw [hx] at h
    dsimp only at h
    split_ifs at h with hvlan hprot hrest hfields hip
    cases h
    have hprot : x = protArp := not_not.mp hprot
    simp only [etherType] at hx
    split_ifs at hx with h802 hplain hshort hnone
    · cases hx
      exact .inr (.inl ⟨rfl, hprot⟩)
    · cases hx
      exact .inl rfl
    · cases hx
      refine .inr (.inr ⟨rfl, if_neg ?_⟩)
      rw [myvlanid]
      split
      · next hall =>
        rw [hall] at hnone
        exact absurd rfl hnone
      · exact hnone

theorem netSetEther_header {addr : List UInt8} (haddr : addr.length = 6)
    (hown : n.netOurEther.length = 6) (m : Mem) (prot : ℕ) :
    bytes (netSetEther n m 0 addr prot).1 0 (netEthHdrSize n) = etherHeader n addr prot := by
  have haddrs : store (store m 0 addr) 6 n.netOurEther = store m 0 (addr ++ n.netOurEther) := by
    have h := store_store m 0 addr n.netOurEther
    rwa [Nat.zero_add, haddr] at h
  have hall : ∀ t, store (store (store m 0 addr) 6 n.netOurEther) 12 t =
      store m 0 (addr ++ (n.netOurEther ++ t)) := by
    intro t
    have h := store_store m 0 (addr ++ n.netOurEther) t
    rwa [Nat.zero_add, List.length_append, haddr, hown, ← haddrs, List.append_assoc] at h
  rw [etherHeader]
  by_cases hnone : ownVlan n = vlanNone
  · have hsize : netEthHdrSize n = 14 := if_pos hnone
    rw [netSetEther_untagged hnone, if_pos hnone, hsize]
    dsimp only
    rw [hall]
    have hlen : (addr ++ (n.netOurEther ++ be16 prot)).length = 14 := by simp [haddr, hown]
    exact bytes_store_of_length m hlen
  · have hsize : netEthHdrSize n = 18 := if_neg hnone
    rw [netSetEther_tagged hnone, if_neg hnone, hsize]
    dsimp only
    rw [hall]
    have hlen : (addr ++ (n.netOurEther ++
        (be16 protVlan ++ (be16 (ownVlan n) ++ be16 prot)))).length = 18 := by simp [haddr, hown]
    exact bytes_store_of_length m hlen

theorem replyFields_below (n : Host) (m : Mem) {arp k l : ℕ} (h : k + l ≤ arp + 6) :
    bytes (replyFields n m arp) k l = bytes m k l := by
  simp only [replyFields]
  rw [bytes_store_of_lt _ _ (by omega), bytes_store_of_lt _ _ (by omega),
    bytes_store_of_lt _ _ (by omega), bytes_store_of_lt _ _ (by omega), bytes_store_of_lt _ _ (by omega)]

theorem bytes_fields (m : Mem) (arp : ℕ) : bytes m (arp + 6) 22 =
    bytes m (arp + 6) 2 ++ (bytes m (arp + 8) 6 ++ (bytes m (arp + 14) 4 ++
      (bytes m (arp + 18) 6 ++ bytes m (arp + 24) 4))) := by
  calc bytes m (arp + 6) 22
      = bytes m (arp + 6) 2 ++ bytes m (arp + 8) 20 := bytes_append m (arp + 6) 2 20
    _ = bytes m (arp + 6) 2 ++ (bytes m (arp + 8) 6 ++ bytes m (arp + 14) 14) :=
        congrArg _ (bytes_append m (arp + 8) 6 14)
    _ = bytes m (arp + 6) 2 ++ (bytes m (arp + 8) 6 ++ (bytes m (arp + 14) 4 ++
          bytes m (arp + 18) 10)) :=
        congrArg _ (congrArg _ (bytes_append m (arp + 14) 4 10))
    _ = _ := congrArg _ (congrArg _ (congrArg _ (bytes_append m (arp + 18) 6 4)))

theorem replyFields_bytes (hown : n.netOurEther.length = 6) (m : Mem) (arp : ℕ) :
    bytes (replyFields n m arp) (arp + 6) 22 =
      be16 2 ++ (n.netOurEther ++ (be32 n.netOurIP ++ (bytes m (arp + 8) 6 ++ bytes m (arp + 14) 4))) := by
  have h2 : (be16 2).length = 2 := rfl
  have hip : (be32 n.netOurIP).length = 4 := rfl
  simp only [replyFields]
  rw [bytes_fields]
  congr 1
  · rw [bytes_store_of_lt _ _ (by omega), bytes_store_of_lt _ _ (by omega),
      bytes_store_of_lt _ _ (by omega), bytes_store_of_lt _ _ (by omega), bytes_store_of_length _ h2]
  congr 1
  · rw [bytes_store_of_lt _ _ (by omega), bytes_store_of_length _ hown]
  congr 1
  · rw [bytes_store_of_length _ hip]
  congr 1
  · rw [bytes_store_of_le _ (by omega), bytes_store_of_le _ (by omega),
      bytes_store_of_lt _ _ (by omega), bytes_store_of_length _ (bytes_length _ _ _),
      bytes_store_of_le _ (by omega)]
  · rw [bytes_store_of_le _ (by omega), bytes_store_of_le _ (by omega),
      bytes_store_of_length _ (bytes_length _ _ _), bytes_store_of_lt _ _ (by omega),
      bytes_store_of_le _ (by omega)]

theorem netEthHdrSize_cases (n : Host) :
    netEthHdrSize n = etherHdrSize ∨ netEthHdrSize n = vlanEtherHdrSize := by
  rw [netEthHdrSize]
  split
  · exact .inl rfl
  · exact .inr rfl

theorem bytes_fixed (h : arpAt n m len = some arp) :
    bytes m arp 6 = be16 1 ++ (be16 protIp ++ [6, 4]) := by
  obtain ⟨rest, -, -, hfields, -⟩ := netReceive_arp h
  simp only [not_or, not_not] at hfields
  obtain ⟨hhrd, hpro, hhln, hpln⟩ := hfields
  calc bytes m arp 6 = bytes m arp 2 ++ (bytes m (arp + 2) 2 ++ bytes m (arp + 4) 2) :=
        (bytes_append m arp 2 4).trans (congrArg _ (bytes_append m (arp + 2) 2 2))
    _ = _ := by
        have hrange : List.range 2 = [0, 1] := rfl
        have hlast : bytes m (arp + 4) 2 = [6, 4] := by
          rw [bytes, hrange, List.map_cons, List.map_cons, List.map_nil, Nat.add_zero, hhln]
          exact congrArg (fun x ↦ [6, x]) hpln
        rw [bytes_two, bytes_two, hhrd, hpro, hlast]

/-- A request is answered with an ARP reply exactly when its ARP packet stands where the header of a
frame of the host ends. -/
theorem arp_answered_iff (n : Host) (m : Mem) (len arp : ℕ) (hown : n.netOurEther.length = 6)
    (h : IsArpRequest n m len arp) : Answers n m len arp ↔ arp = netEthHdrSize n := by
  have hsrc : (bytes m 6 6).length = 6 := bytes_length m 6 6
  have hbehind : ∀ k l, netEthHdrSize n ≤ k →
      bytes (netSetEther n m 0 (bytes m 6 6) protArp).1 k l = bytes m k l :=
    fun k l hk ↦ netSetEther_behind hsrc hown m protArp hk
  have hrun := netReceive_request h
  have hheader := netSetEther_header hsrc hown m protArp
  generalize (netSetEther n m 0 (bytes m 6 6) protArp).1 = m₁ at hbehind hrun hheader
  have hkept : ∀ k l, netEthHdrSize n ≤ k → k + l ≤ arp + 6 →
      bytes (replyFields n m₁ arp) k l = bytes m k l := by
    intro k l hk hl
    rw [replyFields_below n m₁ hl, hbehind k l hk]
  have hfront : bytes (replyFields n m₁ arp) 0 (netEthHdrSize n) = etherHeader n (bytes m 6 6) protArp →
      bytes (replyFields n m₁ arp) 0 (netEthHdrSize n + arpHdrSize) =
        etherHeader n (bytes m 6 6) protArp ++ bytes (replyFields n m₁ arp) (netEthHdrSize n) 28 := by
    intro hf
    rw [bytes_append, Nat.zero_add, hf]
    rfl
  have hether : etherHdrSize = 14 := rfl
  have hvlan : vlanEtherHdrSize = 18 := rfl
  have he802 : e802HdrSize = 22 := rfl
  have hat := arpAt_cases h.1
  have hcases := netEthHdrSize_cases n
  have hsize : netEthHdrSize n ≤ arp + 6 := by omega
  have hsplit := hfront ((replyFields_below n m₁ (by omega)).trans hheader)
  rw [hsplit] at hrun
  constructor
  · intro hans
    rw [Answers, hrun] at hans
    have hreply : bytes (replyFields n m₁ arp) (netEthHdrSize n) 28 = replyPacket n m arp := by
      have hcons := (Prod.mk.inj hans).2
      exact List.append_cancel_left (Out.send.inj (List.cons.inj hcons).1)
    -- a word of the reply that is a word of the request
    have hword : ∀ k v a b, replyPacket n m arp = a ++ (be16 v ++ b) → k = netEthHdrSize n + a.length →
        k + 2 ≤ arp + 6 → load16 m k = v % 65536 := by
      intro k v a b hab hk hle
      have hat' := load16_at (hreply.trans hab)
      rw [← hk] at hat'
      rw [← hat']
      exact (load16_of_bytes_eq (hkept k 2 (by omega) hle)).symm
    have hfixed := bytes_fixed h.1
    rcases hat with harp | ⟨harp, htype⟩ | ⟨harp, hactive⟩
    · rcases hcases with hown' | hown'
      · rw [harp, hown']
      · have hfirst := hword 18 1 [] _ rfl (by rw [hown']; rfl) (by omega)
        have hlens : be16 1 ++ (be16 protIp ++ [6, 4]) = be16 1 ++ be16 protIp ++ (be16 0x0604 ++ []) := by
          decide
        have hlen := load16_at (hfixed.trans hlens)
        rw [List.length_append, be16_length, be16_length, harp, hether] at hlen
        simp only [Nat.reduceAdd] at hlen
        omega
    · have hprot : protArp = 0x0806 := rfl
      have hip : protIp = 0x0800 := rfl
      rcases hcases with hown' | hown'
      · have hop := hword 20 2 (be16 1 ++ (be16 protIp ++ [6, 4])) _ rfl (by rw [hown']; rfl) (by omega)
        omega
      · have hpro := hword 20 protIp (be16 1) _ rfl (by rw [hown']; rfl) (by omega)
        omega
    · rw [harp, hactive]
  · rintro rfl
    have hbody : bytes (replyFields n m₁ (netEthHdrSize n)) (netEthHdrSize n) 28 =
        replyPacket n m (netEthHdrSize n) := by
      calc bytes (replyFields n m₁ (netEthHdrSize n)) (netEthHdrSize n) 28
          = bytes (replyFields n m₁ (netEthHdrSize n)) (netEthHdrSize n) 6 ++
              bytes (replyFields n m₁ (netEthHdrSize n)) (netEthHdrSize n + 6) 22 :=
            bytes_append _ _ 6 22
        _ = _ := by
            rw [hkept _ _ (Nat.le_refl _) (Nat.le_refl _), bytes_fixed h.1, replyFields_bytes hown,
              hbehind _ _ (by omega), hbehind _ _ (by omega), replyPacket]
            simp only [List.append_assoc]
    rw [Answers, hrun, hbody]

/-- A request of the host 2 for 10.0.0.1, behind an Ethernet header with the given type and tail. -/
def request (tail : List UInt8) : Mem := fun k ↦
  ([2, 0, 0, 0, 0, 1, 2, 0, 0, 0, 0, 2] ++ tail ++ [0, 1, 8, 0, 6, 4, 0, 1, 2, 0, 0, 0, 0, 2, 10, 0, 0, 2,
    0, 0, 0, 0, 0, 0, 10, 0, 0, 1] : List UInt8).getD k 0

theorem arp_answered_untagged : Answers host (request [8, 6]) 42 14 :=
  (arp_answered_iff host (request [8, 6]) 42 14 rfl ⟨by decide, by decide⟩).mpr (by decide)

/-- An untagged request in the native VLAN 5 of a host that tags its frames, and a request in an 802
frame to a host without a VLAN. -/
theorem arp_answer_garbled :
    (IsArpRequest { host with netOurVLAN := 5, netOurNativeVLAN := 5 } (request [8, 6]) 42 14 ∧
      ¬ Answers { host with netOurVLAN := 5, netOurNativeVLAN := 5 } (request [8, 6]) 42 14) ∧
    IsArpRequest host (request [0, 36, 0xaa, 0xaa, 3, 0, 0, 0, 8, 6]) 50 22 ∧
      ¬ Answers host (request [0, 36, 0xaa, 0xaa, 3, 0, 0, 0, 8, 6]) 50 22 := by
  have hframe : ∀ (n : Host) (m : Mem) (len arp : ℕ), Answers n m len arp → ((netReceive n m len).2 ==
      [.send (etherHeader n (bytes m 6 6) protArp ++ replyPacket n m arp)]) = true := by
    intro n m len arp h
    rw [h]
    exact beq_self_eq_true _
  refine ⟨⟨⟨by decide, by decide⟩, fun h ↦ ?_⟩, ⟨by decide, by decide⟩, fun h ↦ ?_⟩
  · exact absurd (hframe _ _ _ _ h) (by decide)
  · exact absurd (hframe _ _ _ _ h) (by decide)

end UBoot.Net.ArpReply
