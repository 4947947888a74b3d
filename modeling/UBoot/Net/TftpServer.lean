import Mathlib.Algebra.Group.Nat.Defs
import UBoot.Net.Tftp

namespace UBoot.Net.TftpServer

open Tftp

variable (file : List UInt8)

/-- The number of blocks of a file; the last one is shorter than the others and may be empty. -/
def blockCount : ℕ := file.length / 512 + 1

/-- The contents of the `k`-th block, counted from 1. -/
def payload (k : ℕ) : List UInt8 := (file.drop (512 * (k - 1))).take 512

/-- The packet of the `k`-th block; its number on the wire has 16 bits. -/
def dataPacket (k : ℕ) : List UInt8 :=
  0 :: 3 :: UInt8.ofNat (k / 256) :: UInt8.ofNat k :: payload file k

def oackPacket (options : List UInt8) : List UInt8 := 0 :: 6 :: options

/-- A transfer: the client, the highest block the server has sent, and for each call of
`store_block` the block of the server and the offset. -/
structure World where
  client : Client
  cur : ℕ
  calls : List (ℕ × UInt32)

def start (ourPort : ℕ) (filename : Lib.CString.CStr) (board : Client) : World :=
  ⟨tftpStart ourPort filename board, 0, []⟩

def World.deliver (w : World) (r : Retry) (src k : ℕ) : World :=
  let c := receive r (dataPacket file k) w.client.tftpOurPort src w.client
  { w with
    client := c
    calls := (c.stores.take (c.stores.length - w.client.stores.length)).map (k, ·) ++ w.calls }

/-- One event of a transfer. The server sends a block only after an acknowledgement of the one
before; everything it has sent may be lost, or arrive at any time and any number of times, as long
as `ok` allows it. A device that `NetStartAgain` has halted receives nothing that is sent later. -/
inductive Step (ok : Client → ℕ → Prop) : World → World → Prop
  | serve (w : World) : w.client.ethHalted = false → w.cur < blockCount file →
    (w.cur = 0 ∨ Tx.ack (UInt16.ofNat w.cur) ∈ w.client.tx) → Step ok w { w with cur := w.cur + 1 }
  | data (w : World) (r : Retry) (src k : ℕ) : 1 ≤ k → k ≤ w.cur → ok w.client k →
    Step ok w (w.deliver file r src k)
  | oack (w : World) (r : Retry) (src : ℕ) (options : List UInt8) :
    Step ok w { w with
      client := receive r (oackPacket options) w.client.tftpOurPort src w.client }
  | timeout (w : World) (r : Retry) : Step ok w { w with client := expire r w.client }

theorem payload_length (k : ℕ) :
    (payload file k).length = min 512 (file.length - 512 * (k - 1)) := by
  simp [payload]

variable {file}

theorem payload_getElem? {k i : ℕ} (hi : i < 512) :
    (payload file k)[i]? = file[512 * (k - 1) + i]? := by
  rw [payload, List.getElem?_take_of_lt hi, List.getElem?_drop]

theorem payload_short {k : ℕ} (h₁ : 1 ≤ k) (hk : k ≤ blockCount file) :
    (payload file k).length < 512 ↔ k = blockCount file := by
  rw [payload_length]
  unfold blockCount at *
  omega

theorem ntohs_wire (k : ℕ) :
    ntohs (UInt8.ofNat (k / 256)) (UInt8.ofNat k) = UInt32.ofNat (k % 65536) := by
  apply UInt32.toNat_inj.mp
  simp only [ntohs, UInt32.toNat_add, UInt32.toNat_mul, UInt8.toNat_toUInt32, UInt8.toNat_ofNat',
    UInt32.toNat_ofNat', UInt32.reduceToNat]
  omega

variable (file) in
/-- A block of the server is dropped, or it comes to the `TFTP_DATA` branch. -/
theorem receive_data (r : Retry) (dest src k : ℕ) (c : Client) :
    receive r (dataPacket file k) dest src c = c ∨
      receive r (dataPacket file k) dest src c =
        tftpData r src (UInt32.ofNat (k % 65536)) (payload file k) c := by
  unfold receive
  split
  · unfold tftpHandler
    split_ifs
    · exact .inl rfl
    · exact .inl rfl
    · right
      have h₆ : ntohs 0 3 ≠ 6 := by decide
      have h₃ : ntohs 0 3 = 3 := by decide
      simp only [dataPacket, if_neg h₆, if_pos h₃, ntohs_wire]
  · exact .inl rfl

theorem receive_oack (r : Retry) (dest src : ℕ) (options : List UInt8) (c : Client) :
    receive r (oackPacket options) dest src c = c ∨
      receive r (oackPacket options) dest src c = tftpOack src c := by
  unfold receive
  split
  · unfold tftpHandler
    split_ifs
    · exact .inl rfl
    · exact .inl rfl
    · right
      have h₆ : ntohs 0 6 = 6 := by decide
      simp only [oackPacket, if_pos h₆]
  · exact .inl rfl

@[simp] theorem setBlock_tftpState (b : UInt32) (c : Client) :
    (setBlock b c).tftpState = c.tftpState := by
  unfold setBlock
  split <;> rfl

@[simp] theorem setBlock_tftpBlock (b : UInt32) (c : Client) : (setBlock b c).tftpBlock = b := by
  unfold setBlock
  split <;> rfl

@[simp] theorem setBlock_tftpLastBlock (b : UInt32) (c : Client) :
    (setBlock b c).tftpLastBlock = c.tftpLastBlock := by
  unfold setBlock
  split <;> rfl

theorem waiting_setBlock (b : UInt32) (c : Client) : Waiting (setBlock b c) ↔ Waiting c := by
  rw [Waiting, setBlock_tftpState, Waiting]

/-- What a block does: it is refused as a first block, it repeats the one seen last, or it is
taken, as the first one or as a later one. -/
theorem tftpData_cases (r : Retry) (src : ℕ) (b : UInt32) (p : List UInt8) (c : Client) :
    (Waiting c ∧ b ≠ 1 ∧
      tftpData r src b p c = netStartAgain r (beginData src (setBlock b c))) ∨
    (¬ Waiting c ∧ b = c.tftpLastBlock ∧ tftpData r src b p c = setBlock b c) ∨
    (Waiting c ∧ b = 1 ∧ tftpData r src b p c = takeBlock p (beginData src (setBlock b c))) ∨
    (¬ Waiting c ∧ b ≠ c.tftpLastBlock ∧ tftpData r src b p c = takeBlock p (setBlock b c)) := by
  have hb : (beginData src (setBlock b c)).tftpBlock = b := setBlock_tftpBlock b c
  have hl : (beginData src (setBlock b c)).tftpLastBlock = 0 := rfl
  by_cases hw : Waiting c
  · simp only [tftpData, if_pos ((waiting_setBlock b c).mpr hw), hb, hl]
    by_cases h₁ : b = 1
    · subst h₁
      exact .inr (.inr (.inl ⟨hw, rfl, rfl⟩))
    · exact .inl ⟨hw, h₁, if_pos h₁⟩
  · simp only [tftpData, if_neg (mt (waiting_setBlock b c).mp hw), setBlock_tftpBlock,
      setBlock_tftpLastBlock]
    by_cases h₁ : b = c.tftpLastBlock
    · exact .inr (.inl ⟨hw, h₁, if_pos h₁⟩)
    · exact .inr (.inr (.inr ⟨hw, h₁, if_neg h₁⟩))

theorem takeBlock_size {c : Client} {k : ℕ} (hf : file.length < 2 ^ 32) (hk : k ≤ blockCount file)
    (ho : (c.tftpBlock - 1) * 512 + c.tftpBlockWrapOffset = UInt32.ofNat (512 * (k - 1))) :
    (takeBlock (payload file k) c).netBootFileXferSize.toNat =
      max c.netBootFileXferSize.toNat (512 * (k - 1) + (payload file k).length) := by
  have hlen := payload_length file k
  have hnew : (UInt32.ofNat (512 * (k - 1)) + UInt32.ofNat (payload file k).length).toNat =
      512 * (k - 1) + (payload file k).length := by
    unfold blockCount at hk
    simp only [UInt32.toNat_add, UInt32.toNat_ofNat']
    omega
  have hsz : (takeBlock (payload file k) c).netBootFileXferSize =
      if c.netBootFileXferSize < (c.tftpBlock - 1) * 512 + c.tftpBlockWrapOffset +
          UInt32.ofNat (payload file k).length then
        (c.tftpBlock - 1) * 512 + c.tftpBlockWrapOffset + UInt32.ofNat (payload file k).length
      else c.netBootFileXferSize := rfl
  rw [hsz, ho]
  split_ifs with h
  · rw [UInt32.lt_iff_toNat_lt, hnew] at h
    omega
  · rw [UInt32.lt_iff_toNat_lt, hnew] at h
    omega

end UBoot.Net.TftpServer
