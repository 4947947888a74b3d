import Mathlib.Data.List.Basic
import UBoot.Lib.Memory

namespace UBoot.Httpd.UipArp

open Lib.Memory

def uipArptabSize : ℕ := 8

def uipEthtypeArp : ℕ := 0x0806

/-- `sizeof(struct arp_hdr)`, the Ethernet header included. -/
def arpHdrSize : ℕ := 42

/-- `struct arp_entry`. -/
structure ArpEntry where
  ipaddr : List UInt8
  ethaddr : List UInt8
  time : UInt8

/-- The variables of `uip_arp.c`, addresses as they stand in memory. -/
structure Arp where
  uipHostaddr : List UInt8
  uipEthaddr : List UInt8
  hostaddr_length : uipHostaddr.length = 4
  ethaddr_length : uipEthaddr.length = 6
  arpTable : List ArpEntry
  arptime : UInt8

/-- Neither half of the address is zero. -/
def ArpEntry.inUse (e : ArpEntry) : Bool := e.ipaddr.take 2 != [0, 0] && e.ipaddr.drop 2 != [0, 0]

/-- `uip_arp_update`: the index of the entry that is written. Where the oldest one makes room,
`tabptr` is left at the last entry. -/
def updateIndex (table : List ArpEntry) (ipaddr : List UInt8) : ℕ :=
  match table.findIdx? fun e ↦ e.inUse && e.ipaddr == ipaddr with
  | some i => i
  | none =>
    match table.findIdx? fun e ↦ e.ipaddr == [0, 0, 0, 0] with
    | some i => i
    | none => uipArptabSize - 1

def uipArpUpdate (s : Arp) (ipaddr ethaddr : List UInt8) : Arp :=
  { s with arpTable := s.arpTable.set (updateIndex s.arpTable ipaddr) ⟨ipaddr, ethaddr, s.arptime⟩ }

/-- The request in `uip_buf` made into the reply. -/
def makeReply (s : Arp) (m : Mem) : Mem :=
  let m := store m 20 (be16 2)
  let m := store m 32 (bytes m 22 6)
  let m := store m 22 s.uipEthaddr
  let m := store m 6 s.uipEthaddr
  let m := store m 0 (bytes m 32 6)
  let m := store m 38 (bytes m 28 4)
  let m := store m 28 s.uipHostaddr
  store m 12 (be16 uipEthtypeArp)

/-- `uip_arp_arpin` on the `uip_len` bytes of `uip_buf`: the variables, the buffer and `uip_len`
after it. -/
def uipArpArpin (s : Arp) (m : Mem) (uipLen : ℕ) : Arp × Mem × ℕ :=
  if uipLen < arpHdrSize then (s, m, 0)
  else if load16 m 20 = 1 then
    if bytes m 38 4 = s.uipHostaddr then (s, makeReply s m, arpHdrSize) else (s, m, uipLen)
  else if load16 m 20 = 2 then
    if bytes m 38 4 = s.uipHostaddr then (uipArpUpdate s (bytes m 28 4) (bytes m 22 6), m, uipLen)
    else (s, m, uipLen)
  else (s, m, uipLen)

/-- What `httpd` does with a frame of type ARP: the frame that it sends. -/
def httpdArp (s : Arp) (m : Mem) (uipLen : ℕ) : Arp × Option (List UInt8) :=
  let (s, m, uipLen) := uipArpArpin s m uipLen
  (s, if 0 < uipLen then some (bytes m 0 uipLen) else none)

/-- A complete ARP request for `uip_hostaddr`. -/
def IsRequest (s : Arp) (m : Mem) (uipLen : ℕ) : Prop :=
  arpHdrSize ≤ uipLen ∧ load16 m 20 = 1 ∧ bytes m 38 4 = s.uipHostaddr

/-- The reply to the requester, with the kinds of address that the request has. -/
def reply (s : Arp) (m : Mem) : List UInt8 :=
  bytes m 22 6 ++ (s.uipEthaddr ++ (be16 uipEthtypeArp ++ (bytes m 14 6 ++ (be16 2 ++
    (s.uipEthaddr ++ (s.uipHostaddr ++ (bytes m 22 6 ++ bytes m 28 4)))))))

/-- Requests for our address are answered, and nothing else is left in the buffer. -/
structure Responds (s : Arp) (m : Mem) (uipLen : ℕ) : Prop where
  answered : 0 < (uipArpArpin s m uipLen).2.2 ↔ IsRequest s m uipLen
  request : IsRequest s m uipLen → (uipArpArpin s m uipLen).2.2 = arpHdrSize ∧
    (httpdArp s m uipLen).2 = some (reply s m)
  other : ¬ IsRequest s m uipLen → (uipArpArpin s m uipLen).2.2 = 0 ∧ (httpdArp s m uipLen).2 = none

section

variable {s : Arp} {m : Mem} {uipLen : ℕ}

theorem bytes_split (m : Mem) : bytes m 0 42 =
    bytes m 0 6 ++ (bytes m 6 6 ++ (bytes m 12 2 ++ (bytes m 14 6 ++ (bytes m 20 2 ++
      (bytes m 22 6 ++ (bytes m 28 4 ++ (bytes m 32 6 ++ bytes m 38 4))))))) := by
  exact (bytes_append m 0 6 36).trans (congrArg _ ((bytes_append m 6 6 30).trans (congrArg _
    ((bytes_append m 12 2 28).trans (congrArg _ ((bytes_append m 14 6 22).trans (congrArg _
      ((bytes_append m 20 2 20).trans (congrArg _ ((bytes_append m 22 6 14).trans (congrArg _
        ((bytes_append m 28 4 10).trans (congrArg _ (bytes_append m 32 6 4))))))))))))))

theorem makeReply_eq (s : Arp) (m : Mem) : makeReply s m =
    store (store (store (store (store (store (store (store m 20 (be16 2)) 32 (bytes m 22 6)) 22
      s.uipEthaddr) 6 s.uipEthaddr) 0 (bytes m 22 6)) 38 (bytes m 28 4)) 28 s.uipHostaddr) 12
        (be16 uipEthtypeArp) := by
  have hmac := s.ethaddr_length
  have htwo : (be16 2).length = 2 := be16_length 2
  have hsha : (bytes m 22 6).length = 6 := bytes_length m 22 6
  simp only [makeReply]
  have hfirst : bytes (store m 20 (be16 2)) 22 6 = bytes m 22 6 := bytes_store_of_le _ (by omega)
  rw [hfirst]
  generalize bytes m 22 6 = sha at hsha
  have hsecond : bytes (store (store (store (store m 20 (be16 2)) 32 sha) 22 s.uipEthaddr) 6
      s.uipEthaddr) 32 6 = sha := by
    rw [bytes_store_of_le _ (by omega), bytes_store_of_le _ (by omega), bytes_store_of_length _ hsha]
  rw [hsecond]
  have hthird : bytes (store (store (store (store (store m 20 (be16 2)) 32 sha) 22 s.uipEthaddr) 6
      s.uipEthaddr) 0 sha) 28 4 = bytes m 28 4 := by
    rw [bytes_store_of_le _ (by omega), bytes_store_of_le _ (by omega), bytes_store_of_le _ (by omega),
      bytes_store_of_lt _ _ (by omega), bytes_store_of_le _ (by omega)]
  rw [hthird]

theorem makeReply_bytes (s : Arp) (m : Mem) : bytes (makeReply s m) 0 arpHdrSize = reply s m := by
  have hmac := s.ethaddr_length
  have hip := s.hostaddr_length
  have htwo : (be16 2).length = 2 := be16_length 2
  have htype : (be16 uipEthtypeArp).length = 2 := be16_length uipEthtypeArp
  have hsha : (bytes m 22 6).length = 6 := bytes_length m 22 6
  have hsip : (bytes m 28 4).length = 4 := bytes_length m 28 4
  rw [makeReply_eq, arpHdrSize, reply, bytes_split]
  generalize bytes m 22 6 = sha at hsha
  generalize bytes m 28 4 = sip at hsip
  refine congrArg₂ (· ++ ·) ?_ ?_
  · rw [bytes_store_of_lt _ _ (by omega), bytes_store_of_lt _ _ (by omega),
      bytes_store_of_lt _ _ (by omega), bytes_store_of_length _ hsha]
  refine congrArg₂ (· ++ ·) ?_ ?_
  · rw [bytes_store_of_lt _ _ (by omega), bytes_store_of_lt _ _ (by omega),
      bytes_store_of_lt _ _ (by omega), bytes_store_of_le _ (by omega),
      bytes_store_of_length _ hmac]
  refine congrArg₂ (· ++ ·) ?_ ?_
  · rw [bytes_store_of_length _ htype]
  refine congrArg₂ (· ++ ·) ?_ ?_
  · rw [bytes_store_of_le _ (by omega), bytes_store_of_lt _ _ (by omega),
      bytes_store_of_lt _ _ (by omega), bytes_store_of_le _ (by omega),
      bytes_store_of_le _ (by omega), bytes_store_of_lt _ _ (by omega),
      bytes_store_of_lt _ _ (by omega), bytes_store_of_lt _ _ (by omega)]
  refine congrArg₂ (· ++ ·) ?_ ?_
  · rw [bytes_store_of_le _ (by omega), bytes_store_of_lt _ _ (by omega),
      bytes_store_of_lt _ _ (by omega), bytes_store_of_le _ (by omega),
      bytes_store_of_le _ (by omega), bytes_store_of_lt _ _ (by omega),
      bytes_store_of_lt _ _ (by omega), bytes_store_of_length _ htwo]
  refine congrArg₂ (· ++ ·) ?_ ?_
  · rw [bytes_store_of_le _ (by omega), bytes_store_of_lt _ _ (by omega),
      bytes_store_of_lt _ _ (by omega), bytes_store_of_le _ (by omega),
      bytes_store_of_le _ (by omega), bytes_store_of_length _ hmac]
  refine congrArg₂ (· ++ ·) ?_ ?_
  · rw [bytes_store_of_le _ (by omega), bytes_store_of_length _ hip]
  refine congrArg₂ (· ++ ·) ?_ ?_
  · rw [bytes_store_of_le _ (by omega), bytes_store_of_le _ (by omega),
      bytes_store_of_lt _ _ (by omega), bytes_store_of_le _ (by omega),
      bytes_store_of_le _ (by omega), bytes_store_of_le _ (by omega), bytes_store_of_length _ hsha]
  · rw [bytes_store_of_le _ (by omega), bytes_store_of_le _ (by omega),
      bytes_store_of_length _ hsip]

theorem arpin_request (h : IsRequest s m uipLen) :
    uipArpArpin s m uipLen = (s, makeReply s m, arpHdrSize) := by
  obtain ⟨hlen, hop, hip⟩ := h
  rw [uipArpArpin, if_neg (Nat.not_lt.mpr hlen), if_pos hop, if_pos hip]

theorem arpin_short (h : uipLen < arpHdrSize) : (uipArpArpin s m uipLen).2.2 = 0 := by
  rw [uipArpArpin, if_pos h]

theorem arpin_other (hlen : arpHdrSize ≤ uipLen) (h : ¬ IsRequest s m uipLen) :
    (uipArpArpin s m uipLen).2.2 = uipLen := by
  rw [uipArpArpin, if_neg (Nat.not_lt.mpr hlen)]
  split_ifs with hop hip hop hip
  · exact absurd ⟨hlen, hop, hip⟩ h
  · rfl
  · rfl
  · rfl
  · rfl

/-- The responder keeps its promise for exactly the frames that are too short or ask for our
address. -/
theorem arp_responds_iff (s : Arp) (m : Mem) (uipLen : ℕ) :
    Responds s m uipLen ↔
      uipLen < arpHdrSize ∨ (load16 m 20 = 1 ∧ bytes m 38 4 = s.uipHostaddr) := by
  have hpos : 0 < arpHdrSize := by decide
  by_cases hshort : uipLen < arpHdrSize
  · have hnot : ¬ IsRequest s m uipLen := fun h ↦ absurd h.1 (by omega)
    have hzero : (uipArpArpin s m uipLen).2.2 = 0 := arpin_short hshort
    refine iff_of_true ⟨?_, fun h ↦ absurd h hnot, fun _ ↦ ⟨hzero, ?_⟩⟩ (.inl hshort)
    · rw [hzero]
      exact iff_of_false (Nat.lt_irrefl 0) hnot
    · simp only [httpdArp, hzero]
      rfl
  · rw [or_iff_right hshort]
    by_cases hreq : IsRequest s m uipLen
    · have hrun := arpin_request hreq
      refine iff_of_true ⟨?_, fun _ ↦ ⟨?_, ?_⟩, fun h ↦ absurd hreq h⟩ hreq.2
      · rw [hrun]
        exact iff_of_true hpos hreq
      · rw [hrun]
      · simp only [httpdArp, hrun]
        rw [if_pos hpos, makeReply_bytes]
    · have hrun := arpin_other (Nat.not_lt.mp hshort) hreq
      refine iff_of_false (fun h ↦ ?_) fun h ↦ hreq ⟨Nat.not_lt.mp hshort, h⟩
      have hzero := (h.other hreq).1
      omega

end

def stack : Arp where
  uipHostaddr := [10, 0, 0, 1]
  uipEthaddr := [2, 0, 0, 0, 0, 1]
  hostaddr_length := rfl
  ethaddr_length := rfl
  arpTable := List.replicate uipArptabSize ⟨[0, 0, 0, 0], List.replicate 6 0, 0⟩
  arptime := 0

/-- A request of the host 10.0.0.2 for 10.0.0.9. -/
def foreignRequest : Mem := fun k ↦
  (List.replicate 6 0xff ++ [2, 0, 0, 0, 0, 2, 8, 6, 0, 1, 8, 0, 6, 4, 0, 1, 2, 0, 0, 0, 0, 2, 10, 0, 0,
    2, 0, 0, 0, 0, 0, 0, 10, 0, 0, 9] : List UInt8).getD k 0

/-- The request for another host is sent again as it came. -/
theorem arp_foreign_sent :
    load16 foreignRequest 12 = uipEthtypeArp ∧ ¬ IsRequest stack foreignRequest 60 ∧
      (httpdArp stack foreignRequest 60).2 = some (bytes foreignRequest 0 60) ∧
      ¬ Responds stack foreignRequest 60 := by
  have hnot : ¬ IsRequest stack foreignRequest 60 := by
    rintro ⟨-, -, hip⟩
    exact absurd hip (by decide)
  have hsent : (httpdArp stack foreignRequest 60).2 = some (bytes foreignRequest 0 60) := by
    decide
  refine ⟨by decide, hnot, hsent, fun h ↦ ?_⟩
  rw [(h.other hnot).2] at hsent
  cases hsent

end UBoot.Httpd.UipArp
