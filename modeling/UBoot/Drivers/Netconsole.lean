import UBoot.Lib.Memory
import UBoot.Lib.Patch
import UBoot.Lib.Ring

namespace UBoot.Drivers.Netconsole

open Lib.Memory Lib.Patch Lib.Ring

/-- `sizeof input_buffer`. -/
def inputBufferSize : ℕ := 512

/-- The variables of `netconsole.c`. -/
structure Vars where
  inputBuffer : List UInt8
  inputSize : ℕ
  inputOffset : ℕ
  ncEther : List UInt8
  ncIp : UInt32
  ncPort : Int16

/-- The variables before the first packet. -/
def booted (ether : List UInt8) (ip : UInt32) (port : Int16) : Vars where
  inputBuffer := List.replicate inputBufferSize 0
  inputSize := 0
  inputOffset := 0
  ncEther := ether
  ncIp := ip
  ncPort := port

/-- `nc_port` where it is compared with an `unsigned`. -/
def Vars.port (s : Vars) : UInt32 := s.ncPort.toInt32.toUInt32

/-- `nc_input_packet`: its result and the variables after it. `none` is a copy outside the buffer. -/
def ncInputPacket (s : Vars) (pkt : Mem) (dest len : UInt32) : Option (ℕ × Vars) :=
  if dest ≠ s.port ∨ len = 0 then some (0, s)
  else if s.inputSize = inputBufferSize then some (1, s)
  else
    let len :=
      if len.toNat > inputBufferSize - s.inputSize then inputBufferSize - s.inputSize else len.toNat
    let last := s.inputOffset + s.inputSize
    let last := if last > inputBufferSize then last - inputBufferSize else last
    if last + len > inputBufferSize then do
      let chunk := inputBufferSize - last
      let buf ← patch s.inputBuffer 0 (bytes pkt chunk (len - chunk))
      let buf ← patch buf last (bytes pkt 0 chunk)
      return (1, { s with inputBuffer := buf, inputSize := s.inputSize + len })
    else do
      let buf ← patch s.inputBuffer last (bytes pkt 0 len)
      return (1, { s with inputBuffer := buf, inputSize := s.inputSize + len })

/-- `nc_getc` behind the loop that waits for input. -/
def ncGetc (s : Vars) : Option (UInt8 × Vars) := do
  let c ← s.inputBuffer[s.inputOffset]?
  let offset := s.inputOffset + 1
  let offset := if offset ≥ inputBufferSize then offset - inputBufferSize else offset
  return (c, { s with inputOffset := offset, inputSize := s.inputSize - 1 })

/-- A packet to the configured port, or a call of `nc_getc`. -/
inductive Op where
  | packet (pkt : Mem) (len : UInt32)
  | getc

/-- A call, with the characters that have been returned. -/
def step (s : Vars × List UInt8) : Op → Option (Vars × List UInt8)
  | .packet pkt len => (ncInputPacket s.1 pkt s.1.port len).map fun r ↦ (r.2, s.2)
  | .getc => (ncGetc s.1).map fun r ↦ (r.2, s.2 ++ [r.1])

/-- The same on a queue that has no place for more than `cap` characters. -/
def refStep (cap : ℕ) (s : List UInt8 × List UInt8) : Op → List UInt8 × List UInt8
  | .packet pkt len => (s.1 ++ (bytes pkt 0 len.toNat).take (cap - s.1.length), s.2)
  | .getc => (s.1.tail, s.2 ++ s.1.take 1)

/-- A payload, or input to wait for that is there. -/
def Ready (q : List UInt8) : Op → Prop
  | .packet _ len => len ≠ 0
  | .getc => q ≠ []

instance (q : List UInt8) : (op : Op) → Decidable (Ready q op)
  | .packet _ _ => inferInstanceAs (Decidable (_ ≠ _))
  | .getc => inferInstanceAs (Decidable (_ ≠ _))

def AllReady (cap : ℕ) : List UInt8 × List UInt8 → List Op → Prop
  | _, [] => True
  | s, op :: ops => Ready s.1 op ∧ AllReady cap (refStep cap s op) ops

/-- A buffer with the characters of a queue. -/
structure Rep (s : Vars) (q : List UInt8) : Prop where
  length : s.inputBuffer.length = inputBufferSize
  size : s.inputSize = q.length
  holds : Holds s.inputBuffer s.inputOffset q

section Step

variable {s : Vars} {q : List UInt8}

theorem rep_booted (ether : List UInt8) (ip : UInt32) (port : Int16) :
    Rep (booted ether ip port) [] where
  length := List.length_replicate
  size := rfl
  holds := holds_nil (List.cons_ne_nil _ _)

/-- What is copied behind the queue, the part that is wrapped first. -/
theorem Rep.copy (h : Rep s q) (pkt : Mem) {last n : ℕ} (hroom : q.length + n ≤ inputBufferSize)
    (hlast : last = s.inputOffset + q.length ∧ last ≤ inputBufferSize ∨
      last + inputBufferSize = s.inputOffset + q.length) :
    ∃ s', (if last + n > inputBufferSize then do
        let buf ← patch s.inputBuffer 0
          (bytes pkt (inputBufferSize - last) (n - (inputBufferSize - last)))
        let buf ← patch buf last (bytes pkt 0 (inputBufferSize - last))
        return (1, { s with inputBuffer := buf, inputSize := q.length + n })
      else do
        let buf ← patch s.inputBuffer last (bytes pkt 0 n)
        return (1, { s with inputBuffer := buf, inputSize := q.length + n })) = some (1, s') ∧
      s'.port = s.port ∧ Rep s' (q ++ bytes pkt 0 n) := by
  have htop := h.holds.top_lt
  rw [h.length] at htop
  have hplace (i : ℕ) :
      (s.inputOffset + q.length + i) % inputBufferSize = (last + i) % inputBufferSize := by
    rcases hlast with ⟨rfl, -⟩ | hlast
    · rfl
    · rw [← hlast, Nat.add_right_comm, Nat.add_mod_right]
  have hrep {buf : List UInt8} (hlen : buf.length = s.inputBuffer.length)
      (hold : ∀ i < q.length, buf[(s.inputOffset + i) % inputBufferSize]? =
        s.inputBuffer[(s.inputOffset + i) % inputBufferSize]?)
      (hnew : ∀ i < n, buf[(last + i) % inputBufferSize]? = some (pkt i)) :
      Rep { s with inputBuffer := buf, inputSize := q.length + n } (q ++ bytes pkt 0 n) := by
    refine ⟨hlen.trans h.length, ?_, h.holds.extend hlen ?_ (by rwa [h.length]) fun i hi ↦ ?_⟩
    · rw [List.length_append, bytes_length]
    · rwa [h.length, bytes_length]
    · rw [bytes_length] at hi
      rw [h.length, hplace, hnew i hi, getElem?_bytes _ hi, Nat.zero_add]
  have hlength := h.length
  have hturn {k : ℕ} (hk : k < inputBufferSize + inputBufferSize) :
      k < inputBufferSize ∧ k % inputBufferSize = k ∨
        k % inputBufferSize + inputBufferSize = k := by
    rw [inputBufferSize] at hk ⊢
    omega
  by_cases hwrap : last + n > inputBufferSize
  · rw [if_pos hwrap]
    have hwrapped : 0 + (bytes pkt (inputBufferSize - last) (n - (inputBufferSize - last))).length ≤
        s.inputBuffer.length := by
      rw [bytes_length]
      omega
    obtain ⟨front, hfront⟩ := patch_of_le hwrapped
    have hfrontLen := patch_length hfront
    have hrest : last + (bytes pkt 0 (inputBufferSize - last)).length ≤ front.length := by
      rw [bytes_length]
      omega
    obtain ⟨buf, hbuf⟩ := patch_of_le hrest
    rw [hfront, Option.bind_eq_bind, Option.bind_some, hbuf, Option.bind_some]
    refine ⟨_, rfl, rfl, hrep ((patch_length hbuf).trans hfrontLen) (fun i hi ↦ ?_) fun i hi ↦ ?_⟩
    · have hcell := hturn (k := s.inputOffset + i) (by omega)
      rw [patch_outside hbuf (by rw [bytes_length]; omega),
        patch_outside hfront (by rw [bytes_length]; omega)]
    · have hcell := hturn (k := last + i) (by omega)
      rcases Nat.lt_or_ge i (inputBufferSize - last) with hi' | hi'
      · rw [Nat.mod_eq_of_lt (by omega), patch_inside hbuf (by rwa [bytes_length]),
          getElem?_bytes _ hi', Nat.zero_add]
      · have hat : (last + i) % inputBufferSize = 0 + (i - (inputBufferSize - last)) := by omega
        rw [hat, patch_outside hbuf (by rw [bytes_length]; omega),
          patch_inside hfront (by rw [bytes_length]; omega), getElem?_bytes _ (by omega),
          Nat.add_sub_cancel' hi']
  · rw [if_neg hwrap]
    have hinside : last + (bytes pkt 0 n).length ≤ s.inputBuffer.length := by
      rw [bytes_length]
      omega
    obtain ⟨buf, hbuf⟩ := patch_of_le hinside
    rw [hbuf, Option.bind_eq_bind, Option.bind_some]
    refine ⟨_, rfl, rfl, hrep (patch_length hbuf) (fun i hi ↦ ?_) fun i hi ↦ ?_⟩
    · have hcell := hturn (k := s.inputOffset + i) (by omega)
      rw [patch_outside hbuf (by rw [bytes_length]; omega)]
    · rw [Nat.mod_eq_of_lt (by omega), patch_inside hbuf (by rwa [bytes_length]),
        getElem?_bytes _ hi, Nat.zero_add]

theorem Rep.inputPacket (h : Rep s q) (pkt : Mem) {len : UInt32} (hlen : len ≠ 0) :
    ∃ s', ncInputPacket s pkt s.port len = some (1, s') ∧ s'.port = s.port ∧
      Rep s' (q ++ (bytes pkt 0 len.toNat).take (inputBufferSize - q.length)) := by
  have hle := h.holds.length_le
  have htop := h.holds.top_lt
  rw [h.length] at hle htop
  rw [ncInputPacket, if_neg (by simp [hlen])]
  by_cases hfull : s.inputSize = inputBufferSize
  · refine ⟨s, if_pos hfull, rfl, ?_⟩
    rw [← h.size, hfull, Nat.sub_self, List.take_zero, List.append_nil]
    exact h
  have hmin : (if len.toNat > inputBufferSize - s.inputSize then inputBufferSize - s.inputSize
      else len.toNat) = min (inputBufferSize - q.length) len.toNat := by
    rw [h.size]
    split_ifs <;> omega
  rw [if_neg hfull, take_bytes]
  dsimp only
  rw [hmin, h.size]
  refine h.copy pkt ?_ ?_
  · omega
  · split_ifs <;> omega

theorem Rep.getc {c : UInt8} (h : Rep s (c :: q)) :
    ∃ s', ncGetc s = some (c, s') ∧ s'.port = s.port ∧ Rep s' q := by
  have htop := h.holds.top_lt
  have hnext : (if s.inputOffset + 1 ≥ inputBufferSize then s.inputOffset + 1 - inputBufferSize
      else s.inputOffset + 1) = next s.inputBuffer.length s.inputOffset := by
    rw [next, h.length]
    rw [h.length] at htop
    split_ifs <;> omega
  rw [ncGetc, h.holds.head, Option.bind_eq_bind, Option.bind_some]
  dsimp only
  rw [hnext]
  refine ⟨_, rfl, rfl, h.length, ?_, h.holds.tail⟩
  dsimp only
  rw [h.size, List.length_cons, Nat.add_sub_cancel]

theorem step_spec (h : Rep s q) (out : List UInt8) {op : Op} (hop : Ready q op) :
    ∃ s', step (s, out) op = some (s', (refStep inputBufferSize (q, out) op).2) ∧
      Rep s' (refStep inputBufferSize (q, out) op).1 := by
  cases op with
  | packet pkt len =>
    obtain ⟨s', hs', -, hrep⟩ := h.inputPacket pkt hop
    refine ⟨s', ?_, hrep⟩
    rw [step, hs']
    rfl
  | getc =>
    cases q with
    | nil => exact absurd rfl hop
    | cons c q =>
      obtain ⟨s', hs', -, hrep⟩ := h.getc
      refine ⟨s', ?_, hrep⟩
      rw [step, hs']
      rfl

theorem run_spec (h : Rep s q) (out : List UInt8) {ops : List Op}
    (hops : AllReady inputBufferSize (q, out) ops) :
    ∃ s', ops.foldlM step (s, out) = some (s', (ops.foldl (refStep inputBufferSize) (q, out)).2) ∧
      Rep s' (ops.foldl (refStep inputBufferSize) (q, out)).1 := by
  induction ops generalizing s q out with
  | nil => exact ⟨s, rfl, h⟩
  | cons op ops ih =>
    obtain ⟨hop, hrest⟩ := hops
    obtain ⟨s₁, hs₁, hrep⟩ := step_spec h out hop
    obtain ⟨s', hs', hrep'⟩ := ih hrep _ hrest
    refine ⟨s', ?_, hrep'⟩
    rw [List.foldlM_cons, hs₁]
    exact hs'

end Step

/-- What `nc_getc` returns is what has been received and found a place, in its order. -/
theorem nc_input_fifo (ether : List UInt8) (ip : UInt32) (port : Int16) (ops : List Op)
    (hops : AllReady inputBufferSize ([], []) ops) :
    ∃ s, ops.foldlM step (booted ether ip port, []) =
        some (s, (ops.foldl (refStep inputBufferSize) ([], [])).2) ∧
      s.inputSize = (ops.foldl (refStep inputBufferSize) ([], [])).1.length := by
  obtain ⟨s, hs, hrep⟩ := run_spec (rep_booted ether ip port) [] hops
  exact ⟨s, hs, hrep.size⟩

theorem nc_input_fifo_three : AllReady inputBufferSize ([], []) [.packet (fun _ ↦ 65) 3, .getc] ∧
    ∃ s, [Op.packet (fun _ ↦ 65) 3, .getc].foldlM step (booted [] 0 6666, []) = some (s, [65]) ∧
      s.inputSize = 2 := by
  have hready : AllReady inputBufferSize ([], []) [.packet (fun _ ↦ 65) 3, .getc] :=
    ⟨by decide, List.cons_ne_nil _ _, trivial⟩
  exact ⟨hready, nc_input_fifo [] 0 6666 _ hready⟩

end UBoot.Drivers.Netconsole
