import UBoot.Common.KermitPackets
import UBoot.Lib.CString

namespace UBoot.Common.KermitTransfer

open Lib.CString Lib.Memory Kermit KermitPackets

/-- The control characters of a file, with 7 or with 8 bits. -/
def needsPrefix (b : UInt8) : Bool := b &&& 0x60 == 0 || b &&& 0x7f == 0x7f

/-- A prefixed character that stands for a control character. -/
def standsForControl (c : UInt8) : Bool := c &&& 0x60 == 0x40 || c &&& 0x7f == 0x3f

/-- The text of a file on the line: behind the quote a control character has its bit 6 changed, and
any other one stands for itself. -/
inductive Prefixed (quote : UInt8) : List UInt8 → List UInt8 → Prop
  | nil : Prefixed quote [] []
  | plain {b : UInt8} {text file : List UInt8} : b ≠ quote → Prefixed quote text file →
      Prefixed quote (b :: text) (b :: file)
  | control {b : UInt8} {text file : List UInt8} : needsPrefix b = true → Prefixed quote text file →
      Prefixed quote (quote :: (b ^^^ 0x40) :: text) (b :: file)
  | literal {c : UInt8} {text file : List UInt8} : standsForControl c = false →
      Prefixed quote text file → Prefixed quote (quote :: c :: text) (c :: file)

/-- The packets of a sender: the parameters, then anything but parameters and the end, then the
end. -/
structure Session where
  sendInit : Packet
  middle : List Packet
  last : Packet
  sendInit_type : sendInit.type = sendType
  middle_type : ∀ p ∈ middle, p.type ≠ sendType ∧ p.type ≠ breakType
  last_type : last.type = breakType
  sendInit_wellFormed : sendInit.WellFormed
  middle_wellFormed : ∀ p ∈ middle, p.WellFormed
  last_wellFormed : last.WellFormed

namespace Session

variable (session : Session)

def packets : List Packet := session.sendInit :: (session.middle ++ [session.last])

/-- The quote that the sender announces. -/
def quote : UInt8 := session.sendInit.data.getD 5 kEscape

/-- The data fields of the data packets. -/
def text : List UInt8 :=
  (session.packets.filter fun p ↦ p.type == dataType).flatMap Packet.data

/-- The sender sends this file. -/
def Sends (file : List UInt8) : Prop := Prefixed session.quote session.text file

end Session

def seqOf (index : ℕ) : ℕ := index % 64

/-- Nothing is stored since the checkpoint. -/
def atCheckpoint (r : Recv) : Bool := r.addr == r.addrSaved && r.escape == r.escapeSaved

/-- The receiver goes back to its checkpoint, and does not take a new one. -/
def goesBack (w : List UInt8) (r : Recv) : Bool :=
  match seqRead w with
  | none => true
  | some n => (n : ℤ) == r.lastN

/-- The transfer up to a point: the packet that the sender is at and whether it is acknowledged, the
receiver, and all that came over the line. Two flags follow the checkpoint: the receiver is `ready`
as long as it would put the packet where it belongs, and `done` as long as it has it. -/
structure State where
  index : ℕ
  acked : Bool
  ready : Bool
  done : Bool
  recv : Recv
  stream : List UInt8

/-- What can happen: characters come that the receiver rejects, a copy of the packet comes, with the
rest of a rejected one in front of it, or the sender goes on to the next packet. -/
inductive Event
  | rejected (w : List UInt8)
  | copy (noise : List UInt8)
  | next

def State.start (m : Mem) : State where
  index := 0
  acked := false
  ready := true
  done := false
  recv := initial m
  stream := []

/-- The copy that stands for the packet now. -/
def copyOf (noise : List UInt8) (p : Packet) (s : State) : List UInt8 :=
  noise ++ encode (seqOf s.index) p

def State.exec (session : Session) (s : State) : Event → Option State
  | .rejected w =>
    match turn s.recv w with
    | some (.nack _, r, []) =>
      some { s with
        recv := r
        stream := s.stream ++ w
        ready := s.ready &&
          ((s.recv.lastN == seqOf s.index) == goesBack w s.recv || atCheckpoint s.recv)
        done := s.done && (!goesBack w s.recv || atCheckpoint s.recv) }
    | _ => none
  | .copy noise =>
    match session.packets[s.index]? with
    | none => none
    | some p =>
      if Noise noise ∧ p.type ≠ breakType then
        match turn s.recv (copyOf noise p s) with
        | some (.ack n, r, []) =>
          some { s with
            acked := s.acked || n == seqOf s.index
            ready := true
            done := true
            recv := r
            stream := s.stream ++ copyOf noise p s }
        | _ => none
      else none
  | .next => if s.acked then some { s with index := s.index + 1, acked := false, ready := true, done := false }
    else none

/-- The transfers by a sender that repeats a packet until it is acknowledged, with a condition on the
steps. -/
inductive Run (session : Session) (m : Mem) (cond : State → Event → Prop) : State → Prop
  | start : Run session m cond (State.start m)
  | step {s s' : State} {e : Event} : Run session m cond s → cond s e →
      s.exec session e = some s' → Run session m cond s'

def AnyStep (_ : State) (_ : Event) : Prop := True

/-- No copy comes when the receiver has lost its place, and the sender does not go on when the
receiver has lost the packet again. -/
def KeepsPlace (s : State) : Event → Prop
  | .rejected _ => True
  | .copy _ => s.ready = true
  | .next => s.done = true

instance (s : State) (e : Event) : Decidable (AnyStep s e) := inferInstanceAs (Decidable True)

instance (s : State) (e : Event) : Decidable (KeepsPlace s e) :=
  match e with
  | .rejected _ => inferInstanceAs (Decidable True)
  | .copy _ => inferInstanceAs (Decidable (s.ready = true))
  | .next => inferInstanceAs (Decidable (s.done = true))

section Decode

variable {quote : UInt8} {d : List UInt8 × Bool}

/-- The receiver's view of a character: the file so far, and whether a quote is in front. -/
def decodeChar (quote : UInt8) (d : List UInt8 × Bool) (c : UInt8) : List UInt8 × Bool :=
  if d.2 then (d.1 ++ [ktrans c], false)
  else if c = quote then (d.1, true)
  else (d.1 ++ [c], false)

def decodePacket (quote : UInt8) (d : List UInt8 × Bool) (p : Packet) : List UInt8 × Bool :=
  if p.type = dataType then p.data.foldl (decodeChar quote) d else d

theorem ktrans_control {b : UInt8} (h : needsPrefix b = true) : ktrans (b ^^^ 0x40) = b := by
  have hall : ∀ k : Fin 256, needsPrefix (UInt8.ofNat k) = true →
      ktrans (UInt8.ofNat k ^^^ 0x40) = UInt8.ofNat k := by
    decide +kernel
  have hb := hall ⟨b.toNat, b.toNat_lt⟩
  rw [UInt8.ofNat_toNat] at hb
  exact hb h

theorem ktrans_literal {c : UInt8} (h : standsForControl c = false) : ktrans c = c := by
  rw [standsForControl, Bool.or_eq_false_iff, beq_eq_false_iff_ne, beq_eq_false_iff_ne] at h
  rw [ktrans, if_neg h.1, if_neg h.2]

theorem decode_prefixed {text file : List UInt8} (h : Prefixed quote text file) (out : List UInt8) :
    text.foldl (decodeChar quote) (out, false) = (out ++ file, false) := by
  induction h generalizing out with
  | nil => simp
  | plain hb _ ih => simp [decodeChar, hb, ih]
  | control hb _ ih => simp [decodeChar, ktrans_control hb, ih]
  | literal hc _ ih => simp [decodeChar, ktrans_literal hc, ih]

theorem decode_packets (packets : List Packet) (d : List UInt8 × Bool) :
    packets.foldl (decodePacket quote) d =
      ((packets.filter fun p ↦ p.type == dataType).flatMap Packet.data).foldl (decodeChar quote) d := by
  induction packets generalizing d with
  | nil => rfl
  | cons p packets ih =>
    rw [List.foldl_cons, ih, decodePacket]
    split_ifs with hp
    · rw [List.filter_cons_of_pos (by simpa using hp), List.flatMap_cons, List.foldl_append]
    · rw [List.filter_cons_of_neg (by simpa using hp)]

/-- The file so far is in memory, and the receiver stands behind it. -/
structure At (d : List UInt8 × Bool) (m : Mem) (addr : ℕ) (escape : Bool) : Prop where
  addr : addr = d.1.length
  escape : escape = d.2
  mem : bytes m 0 d.1.length = d.1

theorem At.congr {m m' : Mem} {addr : ℕ} {escape : Bool} (h : At d m addr escape)
    (hm : ∀ k < addr, m' k = m k) : At d m' addr escape where
  addr := h.addr
  escape := h.escape
  mem := by
    rw [← h.mem, bytes_length]
    apply bytes_congr
    intro k _ hk
    exact hm k (by rw [h.addr]; omega)

theorem At.kDataChar {r : Recv} (h : At d r.mem r.addr r.escape) (hquote : r.hisQuote = quote)
    (c : UInt8) : At (decodeChar quote d c) (kDataChar c r).mem (kDataChar c r).addr
      (kDataChar c r).escape := by
  obtain ⟨haddr, hescape, hmem⟩ := h
  have hstore : ∀ b : UInt8, bytes (store r.mem r.addr [b]) 0 (d.1 ++ [b]).length = d.1 ++ [b] := by
    intro b
    rw [List.length_append, bytes_append, bytes_store_of_lt _ _ (by omega), hmem, Nat.zero_add,
      ← haddr, bytes_store]
  rw [Kermit.kDataChar, decodeChar, ← hescape, hquote]
  split_ifs
  · exact ⟨by simp [binDataChar, haddr], rfl, hstore _⟩
  · exact ⟨haddr, rfl, hmem⟩
  · next hplain _ =>
    exact ⟨by simp [binDataChar, haddr], by simpa [binDataChar] using hplain, hstore c⟩

end Decode

section Accept

variable {quote : UInt8} {d : List UInt8 × Bool} {r : Recv}

theorem kDataChar_frame (c : UInt8) (r : Recv) : (kDataChar c r).hisQuote = r.hisQuote ∧
    (kDataChar c r).kState = r.kState ∧ (kDataChar c r).n = r.n := by
  rw [kDataChar]
  split_ifs <;> exact ⟨rfl, rfl, rfl⟩

theorem dataChar_frame (c : UInt8) (r : Recv) :
    (dataChar c r).kState = r.kState ∧ (dataChar c r).n = r.n := by
  rw [dataChar]
  split_ifs
  · exact (kDataChar_frame c r).2
  all_goals exact ⟨rfl, rfl⟩

theorem foldl_frame (cs : List UInt8) (r : Recv) :
    (cs.foldl (fun r c ↦ dataChar c r) r).kState = r.kState ∧
      (cs.foldl (fun r c ↦ dataChar c r) r).n = r.n := by
  induction cs generalizing r with
  | nil => exact ⟨rfl, rfl⟩
  | cons c cs ih =>
    obtain ⟨hstate, hn⟩ := dataChar_frame c r
    obtain ⟨hstate', hn'⟩ := ih (dataChar c r)
    exact ⟨hstate'.trans hstate, hn'.trans hn⟩

theorem within_foldl (cs : List UInt8) (r : Recv) :
    Within r (cs.foldl (fun r c ↦ dataChar c r) r) := by
  induction cs generalizing r with
  | nil => exact Within.refl r
  | cons c cs ih => exact (Within.dataChar c r).trans (ih _)

theorem At.foldl_data (h : At d r.mem r.addr r.escape) (hquote : r.hisQuote = quote)
    (hstate : r.kState = dataType) (cs : List UInt8) :
    At (cs.foldl (decodeChar quote) d) (cs.foldl (fun r c ↦ dataChar c r) r).mem
      (cs.foldl (fun r c ↦ dataChar c r) r).addr (cs.foldl (fun r c ↦ dataChar c r) r).escape := by
  induction cs generalizing r d with
  | nil => exact h
  | cons c cs ih =>
    obtain ⟨hquote', hstate', -⟩ := kDataChar_frame c r
    rw [List.foldl_cons, List.foldl_cons, dataChar, if_pos hstate]
    exact ih (h.kDataChar hquote c) (hquote'.trans hquote) (hstate'.trans hstate)

theorem foldl_other (hstate : r.kState ≠ dataType) (cs : List UInt8) :
    (cs.foldl (fun r c ↦ dataChar c r) r).mem = r.mem ∧
      (cs.foldl (fun r c ↦ dataChar c r) r).addr = r.addr ∧
      (cs.foldl (fun r c ↦ dataChar c r) r).escape = r.escape := by
  induction cs generalizing r with
  | nil => exact ⟨rfl, rfl, rfl⟩
  | cons c cs ih =>
    have hchar : (dataChar c r).mem = r.mem ∧ (dataChar c r).addr = r.addr ∧
        (dataChar c r).escape = r.escape := by
      rw [dataChar, if_neg hstate]
      split_ifs <;> exact ⟨rfl, rfl, rfl⟩
    obtain ⟨hmem, haddr, hescape⟩ := hchar
    obtain ⟨hmem', haddr', hescape'⟩ := ih (r := dataChar c r) (by rwa [(dataChar_frame c r).1])
    exact ⟨hmem'.trans hmem, haddr'.trans haddr, hescape'.trans hescape⟩

theorem At.foldl_packet {p : Packet} (h : At d r.mem r.addr r.escape) (hstate : r.kState = p.type)
    (hquote : p.type = dataType → r.hisQuote = quote) :
    At (decodePacket quote d p) (p.data.foldl (fun r c ↦ dataChar c r) r).mem
      (p.data.foldl (fun r c ↦ dataChar c r) r).addr
      (p.data.foldl (fun r c ↦ dataChar c r) r).escape := by
  rw [decodePacket]
  split_ifs with hp
  · exact h.foldl_data (hquote hp) (hstate.trans hp) p.data
  · obtain ⟨hmem, haddr, hescape⟩ := foldl_other (r := r) (by rwa [hstate]) p.data
    rw [hmem, haddr, hescape]
    exact h

theorem sendParms_foldl (hstate : r.kState = sendType) (cs : List UInt8) :
    (cs.foldl (fun r c ↦ dataChar c r) r).sendParms.take (sendDataSize - 1) =
      (r.sendParms ++ cs).take (sendDataSize - 1) := by
  induction cs generalizing r with
  | nil => simp
  | cons c cs ih =>
    rw [List.foldl_cons, ih (by rw [(dataChar_frame c r).1, hstate]), dataChar,
      if_neg (by rw [hstate]; decide), if_pos hstate]
    simp only
    split_ifs with hlt
    · simp
    · have hle : sendDataSize - 1 ≤ r.sendParms.length := by
        have hsize : sendDataSize = 20 := rfl
        omega
      rw [List.take_append_of_le_length (by simp [List.length_take, hle]),
        List.take_append_of_le_length (by simp [List.length_take, hle]),
        List.take_take, Nat.min_self, List.take_append_of_le_length hle]

theorem handleSendPacket_hisQuote (r : Recv) :
    (handleSendPacket r).hisQuote = (r.sendParms.take (sendDataSize - 1)).getD 5 kEscape := by
  have hsize : sendDataSize = 20 := rfl
  have hget : (r.sendParms.take (sendDataSize - 1)).getD 5 kEscape = r.sendParms.getD 5 kEscape := by
    rw [List.getD_eq_getElem?_getD, List.getD_eq_getElem?_getD, List.getElem?_take_of_lt (by omega)]
  rw [hget, handleSendPacket]
  simp only
  rcases Nat.lt_or_ge 5 r.sendParms.length with hlt | hge
  · rw [if_pos (by split_ifs <;> omega), List.getD_eq_getElem _ _ hlt, List.getD_eq_getElem _ _ hlt]
  · rw [if_neg (by split_ifs <;> omega), List.getD_eq_default _ _ hge]

/-- What an intact copy leaves. -/
structure Accepted (seq : ℕ) (p : Packet) (r r' : Recv) : Prop where
  kState : r'.kState = p.type
  lastN : r'.lastN = seq
  hisQuote : r'.hisQuote = if p.type = sendType then p.data.getD 5 kEscape else r.hisQuote
  saved : ∀ d, At d r.mem (checkpoint seq r).addr (checkpoint seq r).escape →
    At d r'.mem r'.addrSaved r'.escapeSaved
  current : ∀ quote d, At d r.mem (checkpoint seq r).addr (checkpoint seq r).escape →
    (p.type = dataType → r.hisQuote = quote) →
    At (decodePacket quote d p) r'.mem r'.addr r'.escape

theorem checkpoint_frame (n : ℕ) (r : Recv) : (checkpoint n r).hisQuote = r.hisQuote ∧
    (checkpoint n r).lastN = n ∧ (checkpoint n r).n = n ∧ (checkpoint n r).mem = r.mem ∧
    (checkpoint n r).sendParms = r.sendParms := by
  rw [checkpoint]
  split_ifs with h
  · exact ⟨rfl, h.symm, rfl, rfl, rfl⟩
  · exact ⟨rfl, rfl, rfl, rfl, rfl⟩

/-- The receiver behind the header of an intact packet. -/
def opened (seq : ℕ) (p : Packet) (r : Recv) : Recv :=
  { checkpoint seq r with kState := p.type, sendParms := [] }

theorem accept_eq (seq : ℕ) (p : Packet) (r : Recv) : accept seq p { r with sendParms := [] } =
    p.data.foldl (fun r c ↦ dataChar c r) (opened seq p r) := by
  rw [accept, checkpoint_sendParms, opened]

theorem accepted_accept (seq : ℕ) (p : Packet) (r : Recv) :
    Accepted seq p r (acknowledge (accept seq p { r with sendParms := [] })) := by
  obtain ⟨hquote, hlast, -, hmem, -⟩ := checkpoint_frame seq r
  have hwithin := within_foldl p.data (opened seq p r)
  obtain ⟨hstate, -⟩ := foldl_frame p.data (opened seq p r)
  have hcurrent : ∀ quote d, At d r.mem (checkpoint seq r).addr (checkpoint seq r).escape →
      (p.type = dataType → r.hisQuote = quote) → At (decodePacket quote d p)
        (accept seq p { r with sendParms := [] }).mem (accept seq p { r with sendParms := [] }).addr
        (accept seq p { r with sendParms := [] }).escape := by
    intro quote d hd hdata
    rw [accept_eq]
    apply At.foldl_packet
    · rw [← hmem] at hd
      exact hd
    · rfl
    · intro hp
      exact hquote.trans (hdata hp)
  have hsaved : ∀ d, At d r.mem (checkpoint seq r).addr (checkpoint seq r).escape →
      At d (accept seq p { r with sendParms := [] }).mem
        (accept seq p { r with sendParms := [] }).addrSaved
        (accept seq p { r with sendParms := [] }).escapeSaved := by
    intro d hd
    rw [accept_eq, hwithin.addrSaved, hwithin.escapeSaved]
    rw [checkpoint_addr, checkpoint_escape] at hd
    apply hd.congr
    intro k hk
    rw [hwithin.mem k (by rw [← checkpoint_addr] at hk; exact hk)]
    exact congrFun hmem k
  rw [acknowledge]
  split_ifs with hsend
  · have htype : p.type = sendType := by
      rw [accept_eq, hstate] at hsend
      exact hsend
    refine ⟨hsend.trans htype.symm, ?_, ?_, hsaved, hcurrent⟩
    · rw [accept_eq]
      exact hwithin.lastN.trans hlast
    · rw [handleSendPacket_hisQuote, accept_eq, sendParms_foldl (by exact htype), if_pos htype]
      rw [List.getD_eq_getElem?_getD, List.getD_eq_getElem?_getD,
        List.getElem?_take_of_lt (by decide)]
      rfl
  · have htype : p.type ≠ sendType := by
      rw [accept_eq, hstate] at hsend
      exact hsend
    refine ⟨by rw [accept_eq, hstate]; rfl, ?_, ?_, hsaved, hcurrent⟩
    · rw [accept_eq]
      exact hwithin.lastN.trans hlast
    · rw [if_neg htype, accept_eq]
      exact hwithin.hisQuote.trans hquote

theorem turn_copy {noise : List UInt8} (h : Noise noise) {seq : ℕ} {p : Packet}
    (hp : p.WellFormed) (hseq : seq < 64) (r : Recv) :
    ∃ r', turn r (noise ++ encode seq p) = some (.ack seq, r', []) ∧ Accepted seq p r r' := by
  refine ⟨_, ?_, accepted_accept seq p r⟩
  rw [turn_intact h hp hseq, accept_eq, (foldl_frame p.data (opened seq p r)).2]
  rw [show (opened seq p r).n = seq from (checkpoint_frame seq r).2.2.1]

end Accept

section Invariant

variable {session : Session} {m : Mem} {s s' : State}

/-- What the first packets of a session leave. -/
def received (session : Session) (count : ℕ) : List UInt8 × Bool :=
  (session.packets.take count).foldl (decodePacket session.quote) ([], false)

theorem received_succ {index : ℕ} {p : Packet} (h : session.packets[index]? = some p) :
    received session (index + 1) = decodePacket session.quote (received session index) p := by
  rw [received, List.take_add_one, h, List.foldl_append]
  rfl

theorem wellFormed_of_getElem? {index : ℕ} {p : Packet} (h : session.packets[index]? = some p) :
    p.WellFormed := by
  have hmem := List.mem_of_getElem? h
  rw [Session.packets, List.mem_cons, List.mem_append, List.mem_singleton] at hmem
  obtain rfl | hp | rfl := hmem
  · exact session.sendInit_wellFormed
  · exact session.middle_wellFormed p hp
  · exact session.last_wellFormed

theorem type_of_getElem? {index : ℕ} {p : Packet} (h : session.packets[index]? = some p)
    (hindex : 0 < index) : p.type ≠ sendType := by
  obtain ⟨index, rfl⟩ := Nat.exists_eq_succ_of_ne_zero (Nat.ne_of_gt hindex)
  rw [Session.packets, Nat.succ_eq_add_one, List.getElem?_cons_succ] at h
  have hmem := List.mem_of_getElem? h
  rw [List.mem_append, List.mem_singleton] at hmem
  obtain hp | rfl := hmem
  · exact (session.middle_type p hp).1
  · rw [session.last_type]
    decide

/-- The place of the receiver, and that of its checkpoint. -/
def AtCurrent (d : List UInt8 × Bool) (r : Recv) : Prop := At d r.mem r.addr r.escape

def AtSaved (d : List UInt8 × Bool) (r : Recv) : Prop := At d r.mem r.addrSaved r.escapeSaved

structure Inv (session : Session) (s : State) : Prop where
  quote : 0 < s.index ∨ s.done = true → s.recv.hisQuote = session.quote
  ready : s.ready = true → if s.recv.lastN = seqOf s.index then
    AtSaved (received session s.index) s.recv else AtCurrent (received session s.index) s.recv
  done : s.done = true → AtCurrent (received session (s.index + 1)) s.recv
  lastN : s.done = true → s.recv.lastN = seqOf s.index ∨ atCheckpoint s.recv = true

theorem atCheckpoint_iff {r : Recv} {d : List UInt8 × Bool} (h : atCheckpoint r = true) :
    AtSaved d r ↔ AtCurrent d r := by
  rw [atCheckpoint, Bool.and_eq_true, beq_iff_eq, beq_iff_eq] at h
  rw [AtSaved, AtCurrent, h.1, h.2]

theorem inv_start (session : Session) (m : Mem) : Inv session (State.start m) where
  quote h := by
    rcases h with h | h
    · cases h
    · cases h
  ready _ := by
    split_ifs <;> exact ⟨rfl, rfl, rfl⟩
  done h := by cases h
  lastN h := by cases h

/-- The place to put a packet is the one that the receiver has when the packet comes. -/
theorem Inv.at_checkpoint (h : Inv session s) (hready : s.ready = true) :
    At (received session s.index) s.recv.mem (checkpoint (seqOf s.index) s.recv).addr
      (checkpoint (seqOf s.index) s.recv).escape := by
  have hplace := h.ready hready
  rw [checkpoint]
  split_ifs at hplace ⊢ with h₁ h₂ h₃
  · exact hplace
  · exact absurd h₁.symm h₂
  · exact absurd h₃.symm h₁
  · exact hplace

theorem seqOf_lt (index : ℕ) : seqOf index < 64 := Nat.mod_lt _ (by decide)

theorem exec_copy {noise : List UInt8} (h : s.exec session (.copy noise) = some s') :
    ∃ p r, session.packets[s.index]? = some p ∧ Noise noise ∧ p.type ≠ breakType ∧
      turn s.recv (copyOf noise p s) = some (.ack (seqOf s.index), r, []) ∧
      Accepted (seqOf s.index) p s.recv r ∧
      s' = { s with acked := true, ready := true, done := true, recv := r,
                    stream := s.stream ++ copyOf noise p s } := by
  rw [State.exec] at h
  split at h
  · cases h
  · next p hp =>
    split_ifs at h with hnoise
    obtain ⟨r, hturn, hr⟩ := turn_copy hnoise.1 (wellFormed_of_getElem? hp) (seqOf_lt s.index) s.recv
    rw [copyOf, hturn] at h
    refine ⟨p, r, hp, hnoise.1, hnoise.2, hturn, hr, ?_⟩
    simpa [copyOf] using h.symm

theorem exec_rejected {w : List UInt8} (h : s.exec session (.rejected w) = some s') :
    ∃ n r, turn s.recv w = some (.nack n, r, []) ∧ BackAt (base w s.recv) r ∧
      s' = { s with
        recv := r
        stream := s.stream ++ w
        ready := s.ready &&
          ((s.recv.lastN == seqOf s.index) == goesBack w s.recv || atCheckpoint s.recv)
        done := s.done && (!goesBack w s.recv || atCheckpoint s.recv) } := by
  rw [State.exec] at h
  split at h
  · next n r hturn => exact ⟨n, r, hturn, turn_nack hturn, (Option.some.inj h).symm⟩
  · cases h

theorem exec_next (h : s.exec session .next = some s') :
    s' = { s with index := s.index + 1, acked := false, ready := true, done := false } := by
  rw [State.exec] at h
  split_ifs at h
  exact (Option.some.inj h).symm

theorem Inv.copy {noise : List UInt8} (h : Inv session s) (hready : s.ready = true)
    (hexec : s.exec session (.copy noise) = some s') : Inv session s' := by
  obtain ⟨p, r, hp, -, -, -, hr, rfl⟩ := exec_copy hexec
  have hplace := h.at_checkpoint hready
  have hquote : p.type = dataType → s.recv.hisQuote = session.quote := by
    intro hdata
    rcases Nat.eq_zero_or_pos s.index with hzero | hpos
    · rw [hzero, Session.packets, List.getElem?_cons_zero, Option.some.injEq] at hp
      rw [← hp, session.sendInit_type] at hdata
      exact absurd hdata (by decide)
    · exact h.quote (Or.inl hpos)
  refine ⟨fun _ ↦ ?_, fun _ ↦ ?_, fun _ ↦ ?_, fun _ ↦ Or.inl hr.lastN⟩
  · rw [hr.hisQuote]
    rcases Nat.eq_zero_or_pos s.index with hzero | hpos
    · rw [hzero, Session.packets, List.getElem?_cons_zero, Option.some.injEq] at hp
      rw [← hp, if_pos session.sendInit_type]
      rfl
    · rw [if_neg (type_of_getElem? hp hpos)]
      exact h.quote (Or.inl hpos)
  · rw [if_pos hr.lastN]
    exact hr.saved _ hplace
  · rw [AtCurrent, received_succ hp]
    exact hr.current _ _ hplace hquote

theorem Inv.next (h : Inv session s) (hdone : s.done = true)
    (hexec : s.exec session .next = some s') : Inv session s' := by
  have hs := exec_next hexec
  subst hs
  refine ⟨fun _ ↦ h.quote (Or.inr hdone), fun _ ↦ ?_, fun hfalse ↦ ?_, fun hfalse ↦ ?_⟩
  · split_ifs with hlast
    · rcases h.lastN hdone with hold | hat
      · have hsame : s.index % 64 = (s.index + 1) % 64 := by
          exact_mod_cast hold.symm.trans hlast
        omega
      · exact (atCheckpoint_iff hat).mpr (h.done hdone)
    · exact h.done hdone
  · cases hfalse
  · cases hfalse

/-- A rejected copy takes the receiver to a checkpoint that is either its old one or its place. -/
theorem base_frame (w : List UInt8) (r : Recv) : (base w r).hisQuote = r.hisQuote ∧
    (base w r).mem = r.mem ∧
    (if goesBack w r then (base w r).lastN = r.lastN ∧ (base w r).addrSaved = r.addrSaved ∧
        (base w r).escapeSaved = r.escapeSaved
      else (base w r).addrSaved = r.addr ∧ (base w r).escapeSaved = r.escape) := by
  rw [base, goesBack]
  cases seqRead w with
  | none => exact ⟨rfl, rfl, rfl, rfl, rfl⟩
  | some n =>
    simp only [beq_iff_eq, checkpoint]
    split_ifs with h
    · exact ⟨rfl, rfl, rfl, rfl, rfl⟩
    · exact ⟨rfl, rfl, rfl, rfl⟩

theorem at_of_backAt {r r' : Recv} {d : List UInt8 × Bool} (h : BackAt r r') (hd : AtSaved d r) :
    AtSaved d r' ∧ AtCurrent d r' := by
  rw [AtSaved, AtCurrent, h.addr, h.addrSaved, h.escape, h.escapeSaved]
  have hd' := hd.congr h.mem
  exact ⟨hd', hd'⟩

theorem Inv.rejected {w : List UInt8} (h : Inv session s)
    (hexec : s.exec session (.rejected w) = some s') : Inv session s' := by
  obtain ⟨n, r, -, hr, rfl⟩ := exec_rejected hexec
  obtain ⟨hquote, hmem, hplace⟩ := base_frame w s.recv
  have hat : atCheckpoint r = true := by
    rw [atCheckpoint, hr.addr, hr.addrSaved, hr.escape, hr.escapeSaved]
    simp
  -- the checkpoint of the rejected copy stands at `d`
  have hbase : ∀ d, (goesBack w s.recv = true → AtSaved d s.recv) →
      (goesBack w s.recv = false → AtCurrent d s.recv) → AtSaved d r ∧ AtCurrent d r := by
    intro d hback hnew
    apply at_of_backAt hr
    rw [AtSaved, hmem]
    split_ifs at hplace with hgoes
    · rw [hplace.2.1, hplace.2.2]
      exact hback hgoes
    · rw [hplace.1, hplace.2]
      exact hnew (by simpa using hgoes)
  refine ⟨fun hor ↦ ?_, fun hready ↦ ?_, fun hdone ↦ ?_, fun _ ↦ Or.inr hat⟩
  · rw [hr.hisQuote, hquote]
    apply h.quote
    rcases hor with hpos | hdone
    · exact Or.inl hpos
    · rw [Bool.and_eq_true] at hdone
      exact Or.inr hdone.1
  · simp only [Bool.and_eq_true, Bool.or_eq_true, beq_iff_eq] at hready
    obtain ⟨hready, hcase⟩ := hready
    have hold := h.ready hready
    have hboth : AtSaved (received session s.index) r ∧ AtCurrent (received session s.index) r := by
      apply hbase
      · intro hgoes
        rcases hcase with hlast | hsame
        · rw [hgoes, beq_iff_eq] at hlast
          rwa [if_pos hlast] at hold
        · rw [atCheckpoint_iff hsame, ite_self] at hold
          exact (atCheckpoint_iff hsame).mpr hold
      · intro hgoes
        rcases hcase with hlast | hsame
        · rw [hgoes, beq_eq_false_iff_ne] at hlast
          rwa [if_neg hlast] at hold
        · rwa [atCheckpoint_iff hsame, ite_self] at hold
    split_ifs
    · exact hboth.1
    · exact hboth.2
  · simp only [Bool.and_eq_true, Bool.or_eq_true, Bool.not_eq_true'] at hdone
    obtain ⟨hdone, hcase⟩ := hdone
    apply And.right
    apply hbase
    · intro hgoes
      rcases hcase with hfalse | hsame
      · rw [hgoes] at hfalse
        cases hfalse
      · exact (atCheckpoint_iff hsame).mpr (h.done hdone)
    · intro _
      exact h.done hdone

theorem Run.inv (h : Run session m KeepsPlace s) : Inv session s := by
  induction h with
  | start => exact inv_start session m
  | @step s s' e _ hmeets hexec ih =>
    cases e with
    | rejected w => exact ih.rejected hexec
    | copy noise => exact ih.copy hmeets hexec
    | next => exact ih.next hmeets hexec

end Invariant

section Loop

variable {session : Session} {m : Mem} {s : State}

/-- The loop of the receiver has done what the run says, and goes on from there. -/
theorem Run.loop_eq {cond : State → Event → Prop} (h : Run session m cond s) : ∃ turns ≤ s.stream.length, ∀ fuel more,
    loop (turns + fuel) (initial m) (s.stream ++ more) = loop fuel s.recv more := by
  induction h with
  | start => exact ⟨0, Nat.le_refl 0, fun fuel more ↦ by rw [Nat.zero_add]; rfl⟩
  | @step s s' e _ _ hexec ih =>
    obtain ⟨turns, hle, hloop⟩ := ih
    -- one more turn for a copy, whether the receiver takes it or not
    have hturn : ∀ (w : List UInt8) (r : Recv), 0 < w.length →
        (∀ fuel more, loop (fuel + 1) s.recv (w ++ more) = loop fuel r more) →
        ∃ turns ≤ (s.stream ++ w).length, ∀ fuel more,
          loop (turns + fuel) (initial m) (s.stream ++ w ++ more) = loop fuel r more := by
      intro w r hpos hone
      refine ⟨turns + 1, by rw [List.length_append]; omega, fun fuel more ↦ ?_⟩
      rw [Nat.add_assoc, Nat.add_comm 1, List.append_assoc, hloop, hone]
    cases e with
    | rejected w =>
      obtain ⟨n, r, hnack, -, rfl⟩ := exec_rejected hexec
      apply hturn w r (turn_ne_nil hnack)
      intro fuel more
      rw [loop, turn_later hnack]
      rfl
    | copy noise =>
      obtain ⟨p, r, -, -, hbreak, hack, hr, rfl⟩ := exec_copy hexec
      apply hturn _ r (turn_ne_nil hack)
      intro fuel more
      rw [loop, turn_later hack]
      simp only [List.nil_append]
      rw [if_neg (by rw [hr.kState]; exact hbreak)]
    | next =>
      have hs := exec_next hexec
      subst hs
      exact ⟨turns, hle, hloop⟩

/-- The line up to the end of the copy that ends the transfer. -/
def State.toEnd (session : Session) (noise : List UInt8) (s : State) : List UInt8 :=
  s.stream ++ copyOf noise session.last s

/-- The receiver has the file. -/
def Receives (m : Mem) (input file : List UInt8) : Prop :=
  ∃ r, kRecv m input = some (file.length, r) ∧ bytes r.mem 0 file.length = file

theorem received_all {file : List UInt8} (h : session.Sends file) :
    received session (session.middle.length + 2) = (file, false) := by
  have hlength : session.packets.length = session.middle.length + 2 := by simp [Session.packets]
  rw [received, ← hlength, List.take_length, decode_packets]
  exact decode_prefixed h []

theorem receives_of_keepsPlace {file noise : List UInt8} (hfile : session.Sends file)
    (hrun : Run session m KeepsPlace s) (hlast : KeepsPlace s (.copy noise)) (hnoise : Noise noise)
    (hindex : s.index = session.middle.length + 1) : Receives m (s.toEnd session noise) file := by
  obtain ⟨turns, hle, hloop⟩ := hrun.loop_eq
  have hpacket : session.packets[s.index]? = some session.last := by
    rw [hindex, Session.packets, List.getElem?_cons_succ, List.getElem?_append_right (Nat.le_refl _),
      Nat.sub_self]
    rfl
  obtain ⟨r, hturn, hr⟩ := turn_copy hnoise session.last_wellFormed (seqOf_lt s.index) s.recv
  have hplace : AtCurrent (file, false) r := by
    rw [← received_all hfile, show session.middle.length + 2 = s.index + 1 by omega,
      received_succ hpacket]
    apply hr.current _ _ (hrun.inv.at_checkpoint hlast)
    intro hdata
    rw [session.last_type] at hdata
    exact absurd hdata (by decide)
  have hlen : (s.toEnd session noise).length = turns + ((s.toEnd session noise).length - turns - 1 + 1) := by
    have hpos := turn_ne_nil hturn
    rw [State.toEnd, copyOf, List.length_append]
    omega
  refine ⟨r, ?_, hplace.mem⟩
  rw [kRecv, hlen, State.toEnd, hloop, loop, copyOf, hturn]
  simp only
  rw [if_pos (hr.kState.trans session.last_type), hplace.addr]

theorem Run.of_foldlM {cond : State → Event → Prop} [∀ s e, Decidable (cond s e)] {s' : State}
    {events : List Event} (hs : Run session m cond s)
    (h : events.foldlM (fun s e ↦ if cond s e then s.exec session e else none) s = some s') :
    Run session m cond s' := by
  induction events generalizing s with
  | nil =>
    cases h
    exact hs
  | cons e events ih =>
    rw [List.foldlM_cons, Option.bind_eq_bind, Option.bind_eq_some_iff] at h
    obtain ⟨s₁, hs₁, h⟩ := h
    split_ifs at hs₁ with hcond
    exact ih (hs.step hcond hs₁) h

end Loop

section Sample

/-- The packets for the file `ABCD`. -/
def sample : Session where
  sendInit := ⟨sendType, ascii "~* @-#N1", false⟩
  middle := [⟨0x46, ascii "boot.bin", false⟩, ⟨dataType, ascii "AB", false⟩,
    ⟨dataType, ascii "CD", false⟩, ⟨0x5a, [], false⟩]
  last := ⟨breakType, [], false⟩
  sendInit_type := rfl
  middle_type := by decide +kernel
  last_type := rfl
  sendInit_wellFormed := by decide +kernel
  middle_wellFormed := by decide +kernel
  last_wellFormed := by decide +kernel

theorem sample_sends : sample.Sends (ascii "ABCD") := by
  have hplain : ∀ file : List UInt8, 0x23 ∉ file → Prefixed 0x23 file file := by
    intro file h
    induction file with
    | nil => exact .nil
    | cons b file ih =>
      rw [List.mem_cons, not_or] at h
      exact .plain (Ne.symm h.1) (ih h.2)
  exact hplain (ascii "ABCD") (by decide +kernel)

def sampleCopy : List UInt8 := encode 3 ⟨dataType, ascii "CD", false⟩

/-- The second data packet comes with a bad length character, and then as it is. -/
def sampleLoss : List Event :=
  [.copy [], .next, .copy [], .next, .copy [], .next,
    .rejected ((sampleCopy.set 1 0x02).take 2), .copy ((sampleCopy.set 1 0x02).drop 2), .next,
    .copy [], .next]

/-- It comes with a bad check, and then as it is, twice. -/
def sampleRetry : List Event :=
  [.copy [], .next, .copy [], .next, .copy [], .next,
    .rejected ((sampleCopy.set 6 0x21).take 7), .copy ((sampleCopy.set 6 0x21).drop 7), .copy [],
    .next, .copy [], .next]

theorem sample_retry_keepsPlace : ∃ s, Run sample (fun _ ↦ 0) KeepsPlace s ∧ s.index = 5 ∧
    s.ready = true ∧ Receives (fun _ ↦ 0) (s.toEnd sample []) (ascii "ABCD") := by
  have heval : (sampleRetry.foldlM (fun s e ↦ if KeepsPlace s e then s.exec sample e else none)
      (State.start fun _ ↦ 0)).map (fun s ↦ (s.index, s.ready)) = some (5, true) := by
    decide +kernel
  obtain ⟨s, hs, hfields⟩ := Option.map_eq_some_iff.mp heval
  rw [Prod.mk.injEq] at hfields
  have hrun := Run.start.of_foldlM hs
  exact ⟨s, hrun, hfields.1, hfields.2,
    receives_of_keepsPlace sample_sends hrun hfields.2 noise_nil hfields.1⟩

/-- The length that comes back is that of the second data packet alone. -/
theorem not_forall_receives : ¬ ∀ (session : Session) (m : Mem) (s : State) (file noise : List UInt8),
    session.Sends file → Run session m AnyStep s → Noise noise →
    s.index = session.middle.length + 1 → Receives m (s.toEnd session noise) file := by
  intro hall
  have heval : (sampleLoss.foldlM (fun s e ↦ if AnyStep s e then s.exec sample e else none)
      (State.start fun _ ↦ 0)).map (fun s ↦ (s.index, (kRecv (fun _ ↦ 0) (s.toEnd sample [])).map
        Prod.fst)) = some (5, some 2) := by
    decide +kernel
  obtain ⟨s, hs, hfields⟩ := Option.map_eq_some_iff.mp heval
  rw [Prod.mk.injEq] at hfields
  obtain ⟨r, hr, -⟩ := hall sample _ s _ [] sample_sends (Run.start.of_foldlM hs) noise_nil hfields.1
  have hsize := hfields.2
  rw [hr, Option.map_some, Option.some.injEq] at hsize
  have hfour : (ascii "ABCD").length = 4 := rfl
  omega

end Sample

end UBoot.Common.KermitTransfer
