import Mathlib.Logic.Relation
import UBoot.Net.TftpServer

namespace UBoot.Net.TftpWrap

open Tftp TftpServer

variable {file : List UInt8}

/-- The blocks that are placed right: a block with number 0 only as the first one of the next 65536
blocks, any other one out of the current 65536 blocks unless it repeats the number seen last; the
first block of the transfer only as itself. -/
def InEpoch (c : Client) (k : ℕ) : Prop :=
  if Waiting c then k % 65536 = 1 → k = 1
  else if k % 65536 = 0 then c.tftpLastBlock ≠ 0 ∧ k / 65536 = c.tftpBlockWrap.toNat + 1
  else k % 65536 = c.tftpLastBlock.toNat ∨ k / 65536 = c.tftpBlockWrap.toNat

/-- The offset follows the count of wraps. -/
structure Aligned (file : List UInt8) (c : Client) : Prop where
  offset : ¬ Waiting c → c.tftpBlockWrapOffset = c.tftpBlockWrap * (512 * 65536)
  size : c.netBootFileXferSize.toNat ≤ file.length
  success : c.netState = .success → c.netBootFileXferSize.toNat = file.length

structure Inv (file : List UInt8) (w : World) : Prop where
  aligned : Aligned file w.client
  calls : ∀ p ∈ w.calls, p.2.toNat = (p.1 - 1) * 512
  cur_le : w.cur ≤ blockCount file

theorem Aligned.netStartAgain {c : Client} (h : Aligned file c) (r : Retry) :
    Aligned file (netStartAgain r c) := by
  unfold Tftp.netStartAgain
  dsimp only
  split_ifs
  · exact ⟨h.offset, h.size, by simp⟩
  · exact ⟨h.offset, h.size, h.success⟩
  · exact ⟨h.offset, h.size, by simp⟩
  · exact ⟨h.offset, h.size, by simp⟩

@[simp] theorem netStartAgain_stores (r : Retry) (c : Client) :
    (netStartAgain r c).stores = c.stores := by
  unfold Tftp.netStartAgain
  dsimp only
  split_ifs <;> rfl

@[simp] theorem setBlock_stores (b : UInt32) (c : Client) : (setBlock b c).stores = c.stores := by
  unfold setBlock
  split_ifs <;> rfl

theorem takeBlock_aligned {c : Client} {k : ℕ} (hf : file.length < 2 ^ 32) (h₁ : 1 ≤ k)
    (hk : k ≤ blockCount file) (hw : ¬ Waiting c) (h : Aligned file c)
    (ho : (c.tftpBlock - 1) * 512 + c.tftpBlockWrapOffset = UInt32.ofNat (512 * (k - 1))) :
    Aligned file (takeBlock (payload file k) c) := by
  have hsize := takeBlock_size hf hk ho
  have hlen := payload_length file k
  have hcs := h.size
  have hend : 512 * (k - 1) + (payload file k).length ≤ file.length := by
    unfold blockCount at hk
    omega
  refine ⟨fun _ ↦ h.offset hw, by omega, fun hsucc ↦ ?_⟩
  by_cases hshort : (payload file k).length < 512
  · have hN := (payload_short h₁ hk).mp hshort
    unfold blockCount at hN
    omega
  · have hst : c.netState = .success := by
      rw [← hsucc]
      exact (if_neg hshort).symm
    have := h.success hst
    omega

/-- What one packet may do: store nothing, or one block at its place. -/
def Placed (c c' : Client) (k : ℕ) : Prop :=
  c'.stores = c.stores ∨ ∃ off, c'.stores = off :: c.stores ∧ off.toNat = (k - 1) * 512

theorem takeBlock_placed {c c₀ : Client} {k : ℕ} (hf : file.length < 2 ^ 32)
    (hk : k ≤ blockCount file) (hst : c.stores = c₀.stores)
    (ho : (c.tftpBlock - 1) * 512 + c.tftpBlockWrapOffset = UInt32.ofNat (512 * (k - 1)))
    (p : List UInt8) : Placed c₀ (takeBlock p c) k := by
  refine .inr ⟨_, congrArg _ hst, ?_⟩
  have hoff : ((c.tftpBlock - 1) * 512 + c.tftpBlockWrapOffset).toNat = (k - 1) * 512 := by
    rw [ho, UInt32.toNat_ofNat']
    unfold blockCount at hk
    omega
  exact hoff

theorem wire_offset {k : ℕ} (h₁ : 1 ≤ k) {wrap : UInt32} (he : k / 65536 % 2 ^ 32 = wrap.toNat) :
    (UInt32.ofNat (k % 65536) - 1) * 512 + wrap * (512 * 65536) =
      UInt32.ofNat (512 * (k - 1)) := by
  apply UInt32.toNat_inj.mp
  simp only [UInt32.toNat_add, UInt32.toNat_mul, UInt32.toNat_sub, UInt32.toNat_ofNat',
    UInt32.reduceToNat, UInt32.reduceMul]
  omega

theorem ofNat_wire_eq {k : ℕ} {b : UInt32} : UInt32.ofNat (k % 65536) = b ↔ k % 65536 = b.toNat := by
  rw [← UInt32.toNat_inj, UInt32.toNat_ofNat', Nat.mod_eq_of_lt (by omega)]

theorem Aligned.setBlock {c : Client} (h : Aligned file c) (b : UInt32) :
    Aligned file (setBlock b c) := by
  unfold Tftp.setBlock
  split_ifs
  · refine ⟨fun hw ↦ ?_, h.size, h.success⟩
    have hof := h.offset hw
    simp only [hof, UInt32.add_mul, UInt32.one_mul]
  · exact ⟨h.offset, h.size, h.success⟩

theorem later_wrap {c : Client} (hw : ¬ Waiting c) {k : ℕ} (hok : InEpoch c k)
    (hne : UInt32.ofNat (k % 65536) ≠ c.tftpLastBlock) :
    k / 65536 % 2 ^ 32 = (setBlock (UInt32.ofNat (k % 65536)) c).tftpBlockWrap.toNat := by
  have hlt := c.tftpBlockWrap.toNat_lt
  rw [InEpoch, if_neg hw] at hok
  rw [Ne, ofNat_wire_eq] at hne
  unfold setBlock
  by_cases h0 : k % 65536 = 0
  · rw [if_pos h0] at hok
    rw [if_pos (ofNat_wire_eq.mpr h0), hok.2]
    exact (UInt32.toNat_add c.tftpBlockWrap 1).symm
  · rw [if_neg h0] at hok
    have he := hok.resolve_left hne
    rw [if_neg (mt ofNat_wire_eq.mp h0), he]
    exact Nat.mod_eq_of_lt hlt

theorem tftpData_placed (hf : file.length < 2 ^ 32) {c : Client} (h : Aligned file c) (r : Retry)
    (src : ℕ) {k : ℕ} (h₁ : 1 ≤ k) (hk : k ≤ blockCount file) (hok : InEpoch c k) :
    Aligned file (tftpData r src (UInt32.ofNat (k % 65536)) (payload file k) c) ∧
      Placed c (tftpData r src (UInt32.ofNat (k % 65536)) (payload file k) c) k := by
  have hset := h.setBlock (UInt32.ofNat (k % 65536))
  have hbegin : Aligned file (beginData src (setBlock (UInt32.ofNat (k % 65536)) c)) :=
    ⟨fun _ ↦ by simp [beginData], hset.size, hset.success⟩
  have hst : (beginData src (setBlock (UInt32.ofNat (k % 65536)) c)).stores = c.stores :=
    setBlock_stores _ c
  obtain ⟨-, -, he⟩ | ⟨-, -, he⟩ | ⟨hw, hb, he⟩ | ⟨hw, hne, he⟩ :=
    tftpData_cases r src (UInt32.ofNat (k % 65536)) (payload file k) c
  · rw [he]
    exact ⟨hbegin.netStartAgain r, .inl (by rw [netStartAgain_stores, hst])⟩
  · rw [he]
    exact ⟨hset, .inl (setBlock_stores _ c)⟩
  · rw [he]
    rw [InEpoch, if_pos hw] at hok
    obtain rfl := hok (ofNat_wire_eq.mp hb)
    have ho : ((beginData src (setBlock (UInt32.ofNat (1 % 65536)) c)).tftpBlock - 1) * 512 +
        (beginData src (setBlock (UInt32.ofNat (1 % 65536)) c)).tftpBlockWrapOffset =
          UInt32.ofNat (512 * (1 - 1)) := by
      simp [beginData]
    have hnw : ¬ Waiting (beginData src (setBlock (UInt32.ofNat (1 % 65536)) c)) := by
      simp [Waiting, beginData]
    exact ⟨takeBlock_aligned hf h₁ hk hnw hbegin ho, takeBlock_placed hf hk hst ho _⟩
  · rw [he]
    have hnw := mt (waiting_setBlock (UInt32.ofNat (k % 65536)) c).mp hw
    have ho : ((setBlock (UInt32.ofNat (k % 65536)) c).tftpBlock - 1) * 512 +
        (setBlock (UInt32.ofNat (k % 65536)) c).tftpBlockWrapOffset =
          UInt32.ofNat (512 * (k - 1)) := by
      rw [setBlock_tftpBlock, hset.offset hnw]
      exact wire_offset h₁ (later_wrap hw hok hne)
    exact ⟨takeBlock_aligned hf h₁ hk hnw hset ho,
      takeBlock_placed hf hk (setBlock_stores _ c) ho _⟩

theorem expire_aligned {c : Client} (h : Aligned file c) (r : Retry) :
    Aligned file (expire r c) := by
  unfold expire
  split
  · exact h
  · unfold tftpTimeout
    dsimp only
    split_ifs
    · apply Aligned.netStartAgain
      exact ⟨h.offset, h.size, h.success⟩
    · exact ⟨h.offset, h.size, h.success⟩
  · exact ⟨h.offset, h.size, by simp⟩

theorem deliver_calls {w : World} {r : Retry} {src k : ℕ}
    (hc : ∀ p ∈ w.calls, p.2.toNat = (p.1 - 1) * 512)
    (hp : Placed w.client (receive r (dataPacket file k) w.client.tftpOurPort src w.client) k) :
    ∀ p ∈ (w.deliver file r src k).calls, p.2.toNat = (p.1 - 1) * 512 := by
  intro p hm
  simp only [World.deliver] at hm
  obtain hst | ⟨off, hst, hoff⟩ := hp
  · rw [hst] at hm
    simp only [Nat.sub_self, List.take_zero, List.map_nil, List.nil_append] at hm
    exact hc p hm
  · rw [hst] at hm
    simp only [List.length_cons, Nat.add_sub_cancel_left, List.take_succ_cons, List.take_zero,
      List.map_cons, List.map_nil, List.cons_append, List.nil_append, List.mem_cons] at hm
    obtain rfl | hm := hm
    · exact hoff
    · exact hc p hm

theorem step_inv (hf : file.length < 2 ^ 32) {w w' : World} (h : Inv file w)
    (hstep : Step file InEpoch w w') : Inv file w' := by
  cases hstep with
  | serve _ hcur _ => exact ⟨h.aligned, h.calls, hcur⟩
  | data r src k h₁ hk hok =>
    have hkN := hk.trans h.cur_le
    obtain he | he := receive_data file r w.client.tftpOurPort src k w.client
    · exact ⟨by rw [World.deliver, he]; exact h.aligned,
        deliver_calls h.calls (.inl (by rw [he])), h.cur_le⟩
    · obtain ⟨ha, hp⟩ := tftpData_placed hf h.aligned r src h₁ hkN hok
      exact ⟨by rw [World.deliver, he]; exact ha, deliver_calls h.calls (he ▸ hp), h.cur_le⟩
  | oack r src options =>
    obtain he | he := receive_oack r w.client.tftpOurPort src options w.client
    · rw [he]
      exact h
    · rw [he]
      refine ⟨⟨fun hn ↦ absurd (.inr rfl) hn, h.aligned.size, h.aligned.success⟩, h.calls, h.cur_le⟩
  | timeout r => exact ⟨expire_aligned h.aligned r, h.calls, h.cur_le⟩

theorem start_inv (ourPort : ℕ) (filename : Lib.CString.CStr) (board : Client) :
    Inv file (start ourPort filename board) := by
  refine ⟨⟨fun hn ↦ absurd (.inl rfl) hn, Nat.zero_le _, fun hsucc ↦ ?_⟩, ?_, Nat.zero_le _⟩
  · simp [start, tftpStart, tftpSend] at hsucc
  · simp [start]

end UBoot.Net.TftpWrap
