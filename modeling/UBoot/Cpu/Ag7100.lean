import Mathlib.Data.Int.Basic
import UBoot.Lib.Memory

namespace UBoot.Cpu.Ag7100

open Lib.Memory

def noOfRxFifos : ℕ := 8

/-- `ag7100_desc_t`, as far as the receive side reads it. -/
structure Desc where
  isEmpty : Bool
  pktSize : BitVec 12

/-- Where `ag7100_recv` handed a packet on: to `NetReceive`, with a length that may be negative, or
by a copy of so many bytes into `uip_buf`. -/
inductive Handoff
  | netReceive (slot : ℕ) (len : ℤ)
  | uipBuf (len : ℕ)
  deriving DecidableEq

structure Driver where
  fifoRx : ℕ → Desc
  nextRx : ℕ
  netRxPackets : ℕ → Mem
  httpdFlag : Bool
  uipBuf : Mem
  uipLen : ℕ
  handoffs : List Handoff

variable (d : Driver)

def rxOwnedByDma : Bool := (d.fifoRx d.nextRx).isEmpty

def rxGiveToDma : Driver :=
  { d with fifoRx := fun i ↦ if i = d.nextRx then { d.fifoRx i with isEmpty := true } else d.fifoRx i }

/-- The copy into `uip_buf`; what lies behind the array is overwritten by a longer one. -/
def copyToUip (n : ℕ) : Driver :=
  { d with
    uipBuf := store d.uipBuf 0 (bytes (d.netRxPackets d.nextRx) 0 n)
    uipLen := n
    handoffs := d.handoffs ++ [.uipBuf n] }

/-- The body of the receive loop up to the flush of the cache. -/
def handOver : Driver :=
  let length := (d.fifoRx d.nextRx).pktSize.toNat
  if d.httpdFlag = false then
    { d with handoffs := d.handoffs ++ [.netReceive d.nextRx (length - 4)] }
  else if 0 < length then
    -- a packet of at most 18 bytes keeps its checksum
    if 18 < length then copyToUip d (length - 4) else copyToUip d length
  else d

def advance : Driver :=
  { d with nextRx := if noOfRxFifos ≤ d.nextRx + 1 then 0 else d.nextRx + 1 }

def recvLoop : ℕ → Driver → Driver
  | 0, d => d
  | n + 1, d => if rxOwnedByDma d then d else recvLoop n (advance (rxGiveToDma (handOver d)))

/-- The loop gives one descriptor back on each turn, so it takes at most as many as the ring has. -/
def ag7100Recv : Driver := recvLoop noOfRxFifos d

/-- A frame of a legal Ethernet length with its frame check sequence. -/
structure Frame where
  data : List UInt8
  fcs : List UInt8
  fcs_length : fcs.length = 4
  le_length : 60 ≤ data.length
  length_le : data.length ≤ 1514

/-- What a descriptor and its packet buffer hold: nothing, or a received frame. -/
def Holds (i : ℕ) : Option Frame → Prop
  | none => (d.fifoRx i).isEmpty = true
  | some f =>
    (d.fifoRx i).isEmpty = false ∧ (d.fifoRx i).pktSize.toNat = f.data.length + 4 ∧
      bytes (d.netRxPackets i) 0 f.data.length = f.data

/-- The frames `fs` wait in the ring, the oldest first, and the rest of it is the MAC's. -/
structure Pending (fs : List Frame) : Prop where
  nextRx_lt : d.nextRx < noOfRxFifos
  length_le : fs.length ≤ noOfRxFifos
  slots : ∀ j < noOfRxFifos, Holds d ((d.nextRx + j) % noOfRxFifos) fs[j]?

variable {d} {f : Frame} {fs : List Frame}

theorem Pending.rxOwnedByDma_eq (h : Pending d fs) : rxOwnedByDma d = fs.isEmpty := by
  have hslot := h.slots 0 (by decide)
  rw [Nat.add_zero, Nat.mod_eq_of_lt h.nextRx_lt] at hslot
  cases fs with
  | nil => exact hslot
  | cons f fs => exact hslot.1

theorem Pending.handOver_eq (h : Pending d (f :: fs)) (hf : d.httpdFlag = true) :
    handOver d = copyToUip d f.data.length := by
  have hslot := h.slots 0 (by decide)
  rw [Nat.add_zero, Nat.mod_eq_of_lt h.nextRx_lt] at hslot
  have hsize : (d.fifoRx d.nextRx).pktSize.toNat = f.data.length + 4 := hslot.2.1
  have hle := f.le_length
  simp only [handOver, hf, hsize]
  rw [if_neg (by simp), if_pos (by omega), if_pos (by omega), Nat.add_sub_cancel]

theorem Pending.bytes_copyToUip (h : Pending d (f :: fs)) :
    bytes (copyToUip d f.data.length).uipBuf 0 f.data.length = f.data := by
  have hslot := h.slots 0 (by decide)
  rw [Nat.add_zero, Nat.mod_eq_of_lt h.nextRx_lt] at hslot
  have hdata : bytes (d.netRxPackets d.nextRx) 0 f.data.length = f.data := hslot.2.2
  simp only [copyToUip, hdata]
  exact bytes_store d.uipBuf 0 f.data

theorem Pending.advance (h : Pending d (f :: fs)) (n : ℕ) :
    Pending (advance (rxGiveToDma (copyToUip d n))) fs := by
  have hlt : d.nextRx < 8 := h.nextRx_lt
  have hlen : fs.length + 1 ≤ 8 := h.length_le
  have hnext : (Ag7100.advance (rxGiveToDma (copyToUip d n))).nextRx = (d.nextRx + 1) % 8 := by
    change (if 8 ≤ d.nextRx + 1 then 0 else d.nextRx + 1) = (d.nextRx + 1) % 8
    split <;> omega
  refine ⟨?_, ?_, ?_⟩
  · rw [hnext]
    exact Nat.mod_lt _ (by decide)
  · exact Nat.le_of_succ_le h.length_le
  · intro j hj
    have hj8 : j < 8 := hj
    rw [hnext]
    have hmod : ((d.nextRx + 1) % 8 + j) % noOfRxFifos = (d.nextRx + (j + 1)) % 8 := by
      rw [noOfRxFifos, Nat.mod_add_mod, Nat.add_assoc, Nat.add_comm 1 j]
    rw [hmod]
    by_cases hlast : j = 7
    · -- the slot just given back is now the last one of the ring
      subst hlast
      have hnone : fs[7]? = none := List.getElem?_eq_none (by omega)
      have hback : (d.nextRx + (7 + 1)) % 8 = d.nextRx := by omega
      rw [hnone, hback]
      simp [Holds, Ag7100.advance, rxGiveToDma, copyToUip]
    · have hslot := h.slots (j + 1) (by rw [noOfRxFifos]; omega)
      have hne : (d.nextRx + (j + 1)) % 8 ≠ d.nextRx := by omega
      rw [List.getElem?_cons_succ, noOfRxFifos] at hslot
      cases hget : fs[j]? with
      | none =>
        rw [hget] at hslot
        simpa [Holds, Ag7100.advance, rxGiveToDma, copyToUip, hne] using hslot
      | some g =>
        rw [hget] at hslot
        simpa [Holds, Ag7100.advance, rxGiveToDma, copyToUip, hne] using hslot

/-- The lengths of the copies that `ag7100_recv` makes into `uip_buf` for `fs`. -/
def copies (fs : List Frame) : List Handoff := fs.map fun f ↦ .uipBuf f.data.length

/-- What the driver leaves behind: the ring drained, every frame copied to the start of `uip_buf`,
and only the last of them still there. -/
structure Drained (fs : List Frame) (d d' : Driver) : Prop where
  pending : Pending d' []
  httpdFlag : d'.httpdFlag = d.httpdFlag
  handoffs : d'.handoffs = d.handoffs ++ copies fs
  uipLen : d'.uipLen = (fs.getLast?.map (·.data.length)).getD d.uipLen
  uipBuf : ∀ f ∈ fs.getLast?, bytes d'.uipBuf 0 f.data.length = f.data

theorem Pending.recvLoop_eq (h : Pending d []) (n : ℕ) : recvLoop n d = d := by
  cases n with
  | zero => rfl
  | succ n => rw [recvLoop, h.rxOwnedByDma_eq, List.isEmpty_nil, if_pos rfl]

theorem recvLoop_drained (n : ℕ) (h : Pending d fs) (hf : d.httpdFlag = true)
    (hn : fs.length ≤ n) : Drained fs d (recvLoop n d) := by
  induction fs generalizing d n with
  | nil =>
    rw [h.recvLoop_eq]
    exact ⟨h, rfl, by simp [copies], rfl, by simp⟩
  | cons f fs ih =>
    obtain ⟨n, rfl⟩ : ∃ m, n = m + 1 := ⟨n - 1, by simp only [List.length_cons] at hn; omega⟩
    rw [recvLoop, h.rxOwnedByDma_eq, List.isEmpty_cons, if_neg (by simp), h.handOver_eq hf]
    have hrest := ih n (h.advance f.data.length) hf (by simpa using hn)
    refine ⟨hrest.pending, hrest.httpdFlag, ?_, ?_, ?_⟩
    · rw [hrest.handoffs]
      simp [advance, rxGiveToDma, copyToUip, copies]
    · rw [hrest.uipLen]
      cases fs with
      | nil => rfl
      | cons g fs => simp [List.getLast?_eq_some_getLast]
    · cases fs with
      | nil =>
        intro g hg
        obtain rfl : f = g := by simpa using hg
        rw [(h.advance f.data.length).recvLoop_eq]
        exact h.bytes_copyToUip
      | cons g fs =>
        intro e he
        exact hrest.uipBuf e (by simpa [List.getLast?_cons_cons] using he)

theorem ag7100Recv_drained (h : Pending d fs) (hf : d.httpdFlag = true) :
    Drained fs d (ag7100Recv d) :=
  recvLoop_drained noOfRxFifos h hf h.length_le

end UBoot.Cpu.Ag7100
