import Mathlib.Logic.Relation
import UBoot.Net.TftpServer

namespace UBoot.Net.TftpTransfer

open Tftp TftpServer

variable {file : List UInt8}

/-- The bytes of the `j`-th block are at their place in memory. -/
def Stored (file : List UInt8) (c : Client) (j : ℕ) : Prop :=
  ∀ (o : ℕ) (h : o < file.length), o / 512 + 1 = j →
    c.mem (c.loadAddr + UInt32.ofNat o) = file[o]

theorem stored_zero (c : Client) : Stored file c 0 := by
  intro o _ h
  omega

theorem Stored.congr {c c' : Client} {j : ℕ} (h : Stored file c j) (hm : c'.mem = c.mem)
    (ha : c'.loadAddr = c.loadAddr) : Stored file c' j := by
  intro o ho hj
  rw [hm, ha]
  exact h o ho hj

/-- Copying a block to its place changes the bytes of this block only. -/
theorem memcpy_payload (mem : UInt32 → UInt8) (a : UInt32) {k o : ℕ} (h₁ : 1 ≤ k)
    (hk : k ≤ blockCount file) (hf : file.length < 2 ^ 32) (ho : o < file.length) :
    memcpy mem (a + UInt32.ofNat (512 * (k - 1))) (payload file k) (a + UInt32.ofNat o) =
      if o / 512 + 1 = k then file[o] else mem (a + UInt32.ofNat o) := by
  have hlen := payload_length file k
  unfold blockCount at hk
  have hsub : (a + UInt32.ofNat o - (a + UInt32.ofNat (512 * (k - 1)))).toNat =
      (2 ^ 32 - 512 * (k - 1) + o) % 2 ^ 32 := by
    have ha := a.toNat_lt
    simp only [UInt32.toNat_sub, UInt32.toNat_add, UInt32.toNat_ofNat']
    omega
  rw [memcpy, hsub]
  by_cases hb : o / 512 + 1 = k
  · have hi : (2 ^ 32 - 512 * (k - 1) + o) % 2 ^ 32 = o - 512 * (k - 1) := by omega
    rw [if_pos hb, hi, List.getD_eq_getElem?_getD, payload_getElem? (by omega),
      show 512 * (k - 1) + (o - 512 * (k - 1)) = o by omega, List.getElem?_eq_getElem ho]
    rfl
  · have hi : (payload file k).length ≤ (2 ^ 32 - 512 * (k - 1) + o) % 2 ^ 32 := by omega
    rw [if_neg hb, List.getD_eq_getElem?_getD, List.getElem?_eq_none hi]
    rfl

/-- What holds of the client at any time. -/
structure Core (file : List UInt8) (c : Client) : Prop where
  size : c.netBootFileXferSize.toNat ≤ file.length
  block_lt : c.tftpBlock.toNat < 65536
  offset : ¬ Waiting c → c.tftpBlockWrapOffset = 0
  last : ¬ Waiting c → Stored file c c.tftpLastBlock.toNat
  success : c.netState = .success →
    (∀ j ≤ blockCount file, Stored file c j) ∧ c.netBootFileXferSize.toNat = file.length

/-- What holds until the device is halted: only blocks that are stored are acknowledged. -/
structure Acked (file : List UInt8) (c : Client) : Prop where
  block : Stored file c c.tftpBlock.toNat
  acks : ∀ n, Tx.ack n ∈ c.tx → Stored file c n.toNat

structure Inv (file : List UInt8) (w : World) : Prop where
  core : Core file w.client
  acked : w.client.ethHalted = false → Acked file w.client
  below : ∀ j < w.cur, Stored file w.client j
  cur_le : w.cur ≤ blockCount file

/-- The short files: every block number fits in 16 bits. -/
def Short (file : List UInt8) : Prop := file.length < 65535 * 512

theorem Short.blockCount_le (h : Short file) : blockCount file ≤ 65535 := by
  unfold Short blockCount at *
  omega

theorem Short.length_lt (h : Short file) : file.length < 2 ^ 32 := by
  unfold Short at h
  omega

theorem Core.tftpSend {c : Client} (h : Core file c) : Core file (tftpSend c) :=
  ⟨h.size, h.block_lt, h.offset, h.last, h.success⟩

theorem Acked.tftpSend {c : Client} (h : Acked file c) (hb : c.tftpBlock.toNat < 65536) :
    Acked file (tftpSend c) := by
  have hn : c.tftpBlock.toUInt16.toNat = c.tftpBlock.toNat := by
    rw [UInt32.toNat_toUInt16]
    omega
  refine ⟨h.block, fun n hm ↦ ?_⟩
  obtain hm | hm := List.mem_cons.mp hm
  · unfold tftpPacket at hm
    split at hm
    all_goals cases hm
    all_goals
      rw [hn]
      exact h.block
  · exact h.acks n hm

theorem Core.netStartAgain {c : Client} (h : Core file c) (r : Retry) :
    Core file (netStartAgain r c) := by
  unfold Tftp.netStartAgain
  dsimp only
  split_ifs
  · exact ⟨h.size, h.block_lt, h.offset, h.last, by simp⟩
  · exact ⟨h.size, h.block_lt, h.offset, h.last, h.success⟩
  · exact ⟨h.size, h.block_lt, h.offset, h.last, by simp⟩
  · exact ⟨h.size, h.block_lt, h.offset, h.last, by simp⟩

@[simp] theorem netStartAgain_ethHalted (r : Retry) (c : Client) :
    (netStartAgain r c).ethHalted = true := by
  unfold Tftp.netStartAgain
  dsimp only
  split_ifs <;> rfl

@[simp] theorem netStartAgain_mem (r : Retry) (c : Client) : (netStartAgain r c).mem = c.mem := by
  unfold Tftp.netStartAgain
  dsimp only
  split_ifs <;> rfl

@[simp] theorem netStartAgain_loadAddr (r : Retry) (c : Client) :
    (netStartAgain r c).loadAddr = c.loadAddr := by
  unfold Tftp.netStartAgain
  dsimp only
  split_ifs <;> rfl

theorem takeBlock_offset {c : Client} {k : ℕ} (h₁ : 1 ≤ k) (hb : c.tftpBlock = UInt32.ofNat k)
    (ho : c.tftpBlockWrapOffset = 0) :
    (c.tftpBlock - 1) * 512 + c.tftpBlockWrapOffset = UInt32.ofNat (512 * (k - 1)) := by
  apply UInt32.toNat_inj.mp
  rw [hb, ho]
  simp only [UInt32.toNat_add, UInt32.toNat_mul, UInt32.toNat_sub, UInt32.toNat_ofNat',
    UInt32.reduceToNat]
  omega

section Take

variable {c : Client} {k : ℕ} (hs : Short file) (h₁ : 1 ≤ k) (hk : k ≤ blockCount file)
  (hb : c.tftpBlock = UInt32.ofNat k) (ho : c.tftpBlockWrapOffset = 0)

include hs h₁ hk hb ho

theorem takeBlock_mem {o : ℕ} (h : o < file.length) :
    (takeBlock (payload file k) c).mem (c.loadAddr + UInt32.ofNat o) =
      if o / 512 + 1 = k then file[o] else c.mem (c.loadAddr + UInt32.ofNat o) := by
  rw [← memcpy_payload c.mem c.loadAddr h₁ hk hs.length_lt h, ← takeBlock_offset h₁ hb ho]
  rfl

theorem takeBlock_stored : Stored file (takeBlock (payload file k) c) k := by
  intro o h hj
  exact (takeBlock_mem hs h₁ hk hb ho h).trans (if_pos hj)

theorem takeBlock_keeps {j : ℕ} (hj : Stored file c j) :
    Stored file (takeBlock (payload file k) c) j := by
  intro o h hoj
  refine (takeBlock_mem hs h₁ hk hb ho h).trans ?_
  split_ifs
  · rfl
  · exact hj o h hoj

theorem takeBlock_core (hc : Core file c) (hbelow : ∀ j < k, Stored file c j) :
    Core file (takeBlock (payload file k) c) := by
  have hkeep {j : ℕ} (hj : Stored file c j) := takeBlock_keeps hs h₁ hk hb ho hj
  have hsize := takeBlock_size hs.length_lt hk (takeBlock_offset h₁ hb ho)
  have hlen := payload_length file k
  have hle := hs.blockCount_le
  have hend : 512 * (k - 1) + (payload file k).length ≤ file.length := by
    unfold blockCount at hk
    omega
  have hcs := hc.size
  have hbl : c.tftpBlock.toNat = k := by
    rw [hb, UInt32.toNat_ofNat']
    omega
  refine ⟨by omega, hc.block_lt, fun _ ↦ ho, fun _ ↦ ?_, fun hsucc ↦ ?_⟩
  · have hl : (takeBlock (payload file k) c).tftpLastBlock.toNat = k := hbl
    rw [hl]
    exact takeBlock_stored hs h₁ hk hb ho
  · by_cases hshort : (payload file k).length < 512
    · have hN := (payload_short h₁ hk).mp hshort
      refine ⟨fun j hj ↦ ?_, ?_⟩
      · obtain hj | rfl := Nat.lt_or_eq_of_le (hN ▸ hj : j ≤ k)
        · exact hkeep (hbelow j hj)
        · exact takeBlock_stored hs h₁ hk hb ho
      · unfold blockCount at hN
        omega
    · have hst : c.netState = .success := by
        rw [← hsucc]
        exact (if_neg hshort).symm
      obtain ⟨hall, hsz⟩ := hc.success hst
      exact ⟨fun j hj ↦ hkeep (hall j hj), by omega⟩

theorem takeBlock_acked (hc : ∀ n, Tx.ack n ∈ c.tx → Stored file c n.toNat) :
    Acked file (takeBlock (payload file k) c) := by
  have hle := hs.blockCount_le
  have hbl : c.tftpBlock.toNat = k := by
    rw [hb, UInt32.toNat_ofNat']
    omega
  let c₁ := storeBlock (c.tftpBlock - 1) (payload file k)
    { c with tftpLastBlock := c.tftpBlock, timeHandler := some .tftp }
  have hst : Stored file c₁ c₁.tftpBlock.toNat := by
    have hb₁ : c₁.tftpBlock.toNat = k := hbl
    rw [hb₁]
    exact (takeBlock_stored hs h₁ hk hb ho).congr rfl rfl
  have hack : Acked file c₁ := by
    refine ⟨hst, fun n hm ↦ ?_⟩
    exact (takeBlock_keeps hs h₁ hk hb ho (hc n hm)).congr rfl rfl
  have hsend := hack.tftpSend (show c₁.tftpBlock.toNat < 65536 by
    have hb₁ : c₁.tftpBlock.toNat = k := hbl
    omega)
  exact ⟨hsend.block, hsend.acks⟩

end Take

theorem setBlock_of_ne {b : UInt32} (hb : b ≠ 0) (c : Client) :
    setBlock b c = { c with tftpBlock := b } := if_neg hb

/-- An event of the client that keeps the invariant and what is stored. -/
structure Good (file : List UInt8) (c c' : Client) : Prop where
  core : Core file c'
  acked : c'.ethHalted = false → Acked file c'
  keeps : ∀ j, Stored file c j → Stored file c' j

theorem Good.refl {c : Client} (h : Core file c) (ha : c.ethHalted = false → Acked file c) :
    Good file c c := ⟨h, ha, fun _ hj ↦ hj⟩

theorem netStartAgain_good {c c₀ : Client} (h : Core file c) (hm : c.mem = c₀.mem)
    (ha : c.loadAddr = c₀.loadAddr) (r : Retry) : Good file c₀ (netStartAgain r c) := by
  refine ⟨h.netStartAgain r, by simp, fun j hj ↦ hj.congr ?_ ?_⟩
  · rw [netStartAgain_mem, hm]
  · rw [netStartAgain_loadAddr, ha]

theorem tftpOack_good {c : Client} (h : Core file c) (ha : c.ethHalted = false → Acked file c)
    (src : ℕ) : Good file c (tftpOack src c) := by
  let c₁ : Client := { c with tftpState := .oack, tftpServerPort := src }
  have hw : Waiting c₁ := .inr rfl
  have hc : Core file c₁ :=
    ⟨h.size, h.block_lt, fun hn ↦ absurd hw hn, fun hn ↦ absurd hw hn, h.success⟩
  have hack : c₁.ethHalted = false → Acked file c₁ := fun hh ↦ ⟨(ha hh).block, (ha hh).acks⟩
  exact ⟨hc.tftpSend, fun hh ↦ (hack hh).tftpSend hc.block_lt, fun j hj ↦ hj⟩

theorem expire_good {c : Client} (h : Core file c) (ha : c.ethHalted = false → Acked file c)
    (r : Retry) : Good file c (expire r c) := by
  unfold expire
  split
  · exact .refl h ha
  · unfold tftpTimeout
    dsimp only
    split_ifs
    · refine netStartAgain_good ?_ ?_ ?_ r
      · exact ⟨h.size, h.block_lt, h.offset, h.last, h.success⟩
      · rfl
      · rfl
    · refine ⟨Core.tftpSend ⟨h.size, h.block_lt, h.offset, h.last, h.success⟩, fun hh ↦ ?_,
        fun j hj ↦ hj⟩
      exact Acked.tftpSend ⟨(ha hh).block, (ha hh).acks⟩ h.block_lt
  · exact ⟨⟨h.size, h.block_lt, h.offset, h.last, by simp⟩,
      fun hh ↦ ⟨(ha hh).block, (ha hh).acks⟩, fun j hj ↦ hj⟩

theorem tftpData_good (hs : Short file) {c : Client} (h : Core file c)
    (ha : c.ethHalted = false → Acked file c) (r : Retry) (src : ℕ) {k : ℕ} (h₁ : 1 ≤ k)
    (hk : k ≤ blockCount file) (hbelow : ∀ j < k, Stored file c j) :
    Good file c (tftpData r src (UInt32.ofNat k) (payload file k) c) := by
  have hN := hs.blockCount_le
  have hbl : (UInt32.ofNat k).toNat = k := by
    rw [UInt32.toNat_ofNat']
    omega
  have hne : UInt32.ofNat k ≠ 0 := by
    intro h0
    rw [h0] at hbl
    simp only [UInt32.toNat_zero] at hbl
    omega
  have hcase := tftpData_cases r src (UInt32.ofNat k) (payload file k) c
  rw [setBlock_of_ne hne] at hcase
  obtain ⟨hw, -, he⟩ | ⟨hw, hb, he⟩ | ⟨hw, hb, he⟩ | ⟨hw, -, he⟩ := hcase
  · rw [he]
    refine netStartAgain_good ?_ ?_ ?_ r
    · exact ⟨h.size, show (UInt32.ofNat k).toNat < 65536 by omega, fun _ ↦ rfl,
        fun _ ↦ stored_zero _, h.success⟩
    · rfl
    · rfl
  · rw [he]
    refine ⟨⟨h.size, ?_, h.offset, h.last, h.success⟩, fun hh ↦ ⟨?_, (ha hh).acks⟩, fun j hj ↦ hj⟩
    · exact (show (UInt32.ofNat k).toNat < 65536 by omega)
    · exact (hb ▸ h.last hw : Stored file c (UInt32.ofNat k).toNat)
  · rw [he]
    let c₁ : Client := beginData src { c with tftpBlock := UInt32.ofNat k }
    have hc : Core file c₁ :=
      ⟨h.size, show (UInt32.ofNat k).toNat < 65536 by omega, fun _ ↦ rfl, fun _ ↦ stored_zero _,
        h.success⟩
    exact ⟨takeBlock_core (c := c₁) hs h₁ hk rfl rfl hc hbelow,
      fun hh ↦ takeBlock_acked (c := c₁) hs h₁ hk rfl rfl (ha hh).acks,
      fun j hj ↦ takeBlock_keeps (c := c₁) hs h₁ hk rfl rfl hj⟩
  · rw [he]
    let c₁ : Client := { c with tftpBlock := UInt32.ofNat k }
    have hc : Core file c₁ :=
      ⟨h.size, show (UInt32.ofNat k).toNat < 65536 by omega, h.offset, h.last, h.success⟩
    exact ⟨takeBlock_core (c := c₁) hs h₁ hk rfl (h.offset hw) hc hbelow,
      fun hh ↦ takeBlock_acked (c := c₁) hs h₁ hk rfl (h.offset hw) (ha hh).acks,
      fun j hj ↦ takeBlock_keeps (c := c₁) hs h₁ hk rfl (h.offset hw) hj⟩

theorem Inv.of_good {w : World} (h : Inv file w) {c : Client} (hg : Good file w.client c)
    (calls : List (ℕ × UInt32)) : Inv file ⟨c, w.cur, calls⟩ :=
  ⟨hg.core, hg.acked, fun j hj ↦ hg.keeps j (h.below j hj), h.cur_le⟩

theorem step_inv (hs : Short file) {ok : Client → ℕ → Prop} {w w' : World} (h : Inv file w)
    (hstep : Step file ok w w') : Inv file w' := by
  cases hstep with
  | serve hh hcur hack =>
    refine ⟨h.core, h.acked, fun j hj ↦ ?_, hcur⟩
    obtain hj | rfl := Nat.lt_or_eq_of_le (Nat.le_of_lt_succ hj)
    · exact h.below j hj
    · obtain h0 | hm := hack
      · rw [h0]
        exact stored_zero _
      · have hst := (h.acked hh).acks _ hm
        rwa [UInt16.toNat_ofNat', Nat.mod_eq_of_lt (by have := hs.blockCount_le; omega)] at hst
  | data r src k h₁ hk _ =>
    have hkN := hk.trans h.cur_le
    have hmod : k % 65536 = k := Nat.mod_eq_of_lt (by have := hs.blockCount_le; omega)
    obtain he | he := receive_data file r w.client.tftpOurPort src k w.client
    · rw [World.deliver, he]
      exact ⟨h.core, h.acked, h.below, h.cur_le⟩
    · rw [World.deliver, he, hmod]
      exact h.of_good (tftpData_good hs h.core h.acked r src h₁ hkN
        fun j hj ↦ h.below j (by omega)) _
  | oack r src options =>
    obtain he | he := receive_oack r w.client.tftpOurPort src options w.client
    · rw [he]
      exact h
    · rw [he]
      exact h.of_good (tftpOack_good h.core h.acked src) _
  | timeout r => exact h.of_good (expire_good h.core h.acked r) _

theorem start_inv (ourPort : ℕ) (filename : Lib.CString.CStr) (board : Client) :
    Inv file (start ourPort filename board) := by
  have hw : Waiting (start ourPort filename board).client := .inl rfl
  refine ⟨⟨?_, ?_, fun hn ↦ absurd hw hn, fun hn ↦ absurd hw hn, ?_⟩, fun _ ↦ ⟨?_, ?_⟩, ?_, ?_⟩
  · exact Nat.zero_le _
  · exact (by decide : (0 : UInt32).toNat < 65536)
  · exact fun hsucc ↦ absurd hsucc (by simp [start, tftpStart, tftpSend])
  · exact stored_zero _
  · intro n hn
    simp [start, tftpStart, tftpSend, tftpPacket] at hn
  · exact fun j hj ↦ absurd hj (Nat.not_lt_zero j)
  · exact Nat.zero_le _

theorem run_inv (hs : Short file) {ok : Client → ℕ → Prop} {ourPort : ℕ}
    {filename : Lib.CString.CStr} {board : Client} {w : World}
    (h : Relation.ReflTransGen (Step file ok) (start ourPort filename board) w) : Inv file w := by
  induction h with
  | refl => exact start_inv ourPort filename board
  | tail _ hstep ih => exact step_inv hs ih hstep

end UBoot.Net.TftpTransfer
