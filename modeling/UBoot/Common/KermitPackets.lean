import Mathlib
import UBoot.Common.Kermit

namespace UBoot.Common.KermitPackets

open Lib.Memory Lib.Receive Kermit

/-- A packet of the sender; a long one has an extended length. -/
structure Packet where
  type : UInt8
  data : List UInt8
  long : Bool

structure Packet.WellFormed (p : Packet) : Prop where
  type : isControl p.type = false
  data : ∀ c ∈ p.data, isControl c = false
  length : if p.long then p.data.length + 1 < 95 * 95 else p.data.length + 3 < 95

instance (p : Packet) : Decidable p.WellFormed :=
  decidable_of_iff (isControl p.type = false ∧ (∀ c ∈ p.data, isControl c = false) ∧
      if p.long then p.data.length + 1 < 95 * 95 else p.data.length + 3 < 95)
    ⟨fun ⟨htype, hdata, hlength⟩ ↦ ⟨htype, hdata, hlength⟩,
      fun h ↦ ⟨h.type, h.data, h.length⟩⟩

def byteSum (bs : List UInt8) : ℕ := (bs.map UInt8.toNat).sum

/-- The characters in front of the data. -/
def header (seq : ℕ) (p : Packet) : List UInt8 :=
  if p.long then
    let front := [tochar 0, tochar seq, p.type, tochar ((p.data.length + 1) / 95),
      tochar ((p.data.length + 1) % 95)]
    front ++ [check (byteSum front)]
  else [tochar (p.data.length + 3), tochar seq, p.type]

def encode (seq : ℕ) (p : Packet) : List UInt8 :=
  startChar :: (header seq p ++ p.data ++ [check (byteSum (header seq p ++ p.data)), endChar])

/-- What the receiver skips on its way to a packet. -/
def Noise (w : List UInt8) : Prop := ∀ c ∈ w, c ≠ startChar ∧ c ≠ etxChar

instance (w : List UInt8) : Decidable (Noise w) := inferInstanceAs (Decidable (∀ c ∈ w, _))

theorem noise_nil : Noise [] := fun _ hc ↦ absurd hc List.not_mem_nil

section Intact

variable {r : Recv} {w : List UInt8}

@[simp] theorem byteSum_append (bs cs : List UInt8) : byteSum (bs ++ cs) = byteSum bs + byteSum cs := by
  simp [byteSum]

@[simp] theorem byteSum_cons (b : UInt8) (bs : List UInt8) : byteSum (b :: bs) = b.toNat + byteSum bs := by
  simp [byteSum]

@[simp] theorem byteSum_nil : byteSum [] = 0 := rfl

theorem tochar_spec {x : ℕ} (h : x < 95) : isControl (tochar x) = false ∧ untochar (tochar x) = x := by
  have hall : ∀ x : Fin 95, isControl (tochar x) = false ∧ untochar (tochar x) = x := by
    decide
  exact hall ⟨x, h⟩

theorem check_printable (sum : ℕ) : isControl (check sum) = false :=
  (tochar_spec (by omega)).1

theorem printable_cons {c : UInt8} (h : isControl c = false) :
    printable.run r (c :: w) = some (some c, r, w) := by
  rw [printable, Rx.run_bind_of_some _ (Rx.run_getc_cons c), if_neg (by simp [h]), Rx.run_pure]

theorem dataField_append {cs : List UInt8} (h : ∀ c ∈ cs, isControl c = false) (sum : ℕ) :
    (dataField cs.length sum).run r (cs ++ w) =
      some (some (sum + byteSum cs), cs.foldl (fun r c ↦ dataChar c r) r, w) := by
  induction cs generalizing r sum with
  | nil => rfl
  | cons c cs ih =>
    rw [List.length_cons, dataField, List.cons_append,
      Rx.run_bind_of_some _ (printable_cons (h c List.mem_cons_self)),
      Rx.run_bind_of_some _ (Rx.run_modify _), ih fun d hd ↦ h d (List.mem_cons_of_mem c hd)]
    simp only [byteSum_cons, List.foldl_cons, Nat.add_assoc]

theorem packetEnd_append (sum : ℕ) :
    (packetEnd sum).run r (check sum :: endChar :: w) = some (some (), r, w) := by
  rw [packetEnd, Rx.run_bind_of_some _ (printable_cons (check_printable sum)), if_neg (by simp),
    Rx.run_bind_of_some _ (Rx.run_getc_cons endChar), if_neg (by simp), Rx.run_pure]

theorem extendedLength_append {hi lo : ℕ} (hhi : hi < 95) (hlo : lo < 95) (sum : ℕ) :
    (extendedLength sum).run r (tochar hi :: tochar lo ::
        check (sum + (tochar hi).toNat + (tochar lo).toNat) :: w) =
      some (some (hi * 95 + lo, sum + (tochar hi).toNat + (tochar lo).toNat +
        (check (sum + (tochar hi).toNat + (tochar lo).toNat)).toNat), r, w) := by
  rw [extendedLength, Rx.run_bind_of_some _ (printable_cons (tochar_spec hhi).1),
    Rx.run_bind_of_some _ (printable_cons (tochar_spec hlo).1),
    Rx.run_bind_of_some _ (printable_cons (check_printable _)), if_neg (by simp), Rx.run_pure,
    (tochar_spec hhi).2, (tochar_spec hlo).2]

/-- What the receiver does with an intact packet. -/
def accept (seq : ℕ) (p : Packet) (r : Recv) : Recv :=
  p.data.foldl (fun r c ↦ dataChar c r) { checkpoint seq r with kState := p.type }

/-- The packet from its type on, with the characters between the type and the data. -/
theorem packetBody_of_length {length sum total : ℕ} {p : Packet} {front : List UInt8}
    (hp : p.WellFormed)
    (hlength : ∀ r w, (packetLength length (sum + p.type.toNat)).run r (front ++ w) =
      some (some (p.data.length + 1, total), r, w)) :
    (packetBody length sum).run r
        (p.type :: (front ++ (p.data ++ check (total + byteSum p.data) :: endChar :: w))) =
      some (some (), p.data.foldl (fun r c ↦ dataChar c r) { r with kState := p.type }, w) := by
  rw [packetBody, Rx.run_bind_of_some _ (printable_cons hp.type),
    Rx.run_bind_of_some _ (Rx.run_modify _), Rx.run_bind_of_some _ (hlength _ _),
    Nat.add_sub_cancel, Rx.run_bind_of_some _ (dataField_append hp.data _), packetEnd_append]

theorem packetLength_short (r : Recv) (w : List UInt8) (n sum : ℕ) :
    (packetLength (n + 3) sum).run r ([] ++ w) = some (some (n + 1, sum), r, w) := by
  rw [packetLength, if_neg (by omega)]
  rfl

theorem packetLength_long (r : Recv) (w : List UInt8) {n : ℕ} (hn : n < 95 * 95) (sum : ℕ) :
    (packetLength 0 sum).run r ([tochar (n / 95), tochar (n % 95),
        check (sum + (tochar (n / 95)).toNat + (tochar (n % 95)).toNat)] ++ w) =
      some (some (n, sum + (tochar (n / 95)).toNat + (tochar (n % 95)).toNat +
        (check (sum + (tochar (n / 95)).toNat + (tochar (n % 95)).toNat)).toNat), r, w) := by
  have hext := extendedLength_append (r := r) (w := w) (by omega : n / 95 < 95)
    (by omega : n % 95 < 95) sum
  rwa [Nat.div_add_mod'] at hext

theorem packet_intact {seq : ℕ} {p : Packet} (hp : p.WellFormed) (hseq : seq < 64) :
    packet.run r (header seq p ++ p.data ++
        check (byteSum (header seq p ++ p.data)) :: endChar :: w) =
      some (some (), accept seq p r, w) := by
  obtain ⟨hseq', huntochar⟩ := tochar_spec (x := seq) (by omega)
  have hlen := hp.length
  cases hlong : p.long with
  | false =>
    rw [hlong, if_neg (by decide)] at hlen
    obtain ⟨hlength, hlength'⟩ := tochar_spec hlen
    simp only [header, hlong, Bool.false_eq_true, if_false, List.cons_append, List.nil_append,
      byteSum_cons]
    rw [packet, Rx.run_bind_of_some _ (printable_cons hlength),
      Rx.run_bind_of_some _ (printable_cons hseq'), Rx.run_bind_of_some _ (Rx.run_modify _),
      huntochar, hlength']
    have hbody := packetBody_of_length (r := checkpoint seq r) (w := w) hp fun r w ↦
      packetLength_short r w p.data.length
        ((tochar (p.data.length + 3)).toNat + (tochar seq).toNat + p.type.toNat)
    simpa only [accept, List.nil_append, Nat.add_assoc] using hbody
  | true =>
    rw [hlong, if_pos rfl] at hlen
    obtain ⟨hlength, hlength'⟩ := tochar_spec (x := 0) (by omega)
    simp only [header, hlong, if_true, List.cons_append, List.nil_append,
      byteSum_cons, byteSum_nil, Nat.add_zero]
    rw [packet, Rx.run_bind_of_some _ (printable_cons hlength),
      Rx.run_bind_of_some _ (printable_cons hseq'), Rx.run_bind_of_some _ (Rx.run_modify _),
      huntochar, hlength']
    have hbody := packetBody_of_length (r := checkpoint seq r) (w := w) hp fun r w ↦
      packetLength_long r w hlen ((tochar 0).toNat + (tochar seq).toNat + p.type.toNat)
    simpa only [accept, List.cons_append, List.nil_append, Nat.add_assoc] using hbody

end Intact

section Turn

variable {r r' : Recv} {w rest : List UInt8} {a : Reply}

theorem turn_noise {noise : List UInt8} (h : Noise noise) : turn r (noise ++ w) = turn r w := by
  induction noise with
  | nil => rfl
  | cons c noise ih =>
    obtain ⟨hstart, hetx⟩ := h c List.mem_cons_self
    rw [List.cons_append, turn, if_neg hstart, if_neg hetx,
      ih fun d hd ↦ h d (List.mem_cons_of_mem c hd)]

theorem turn_later (h : turn r w = some (a, r', rest)) (more : List UInt8) :
    turn r (w ++ more) = some (a, r', rest ++ more) := by
  induction w with
  | nil => cases h
  | cons c w ih =>
    rw [turn] at h
    rw [List.cons_append, turn]
    split at h
    · next hc =>
      rw [if_pos hc]
      split at h
      · cases h
      all_goals
        next hp =>
        cases h
        rw [packet.later hp]
    · next hc =>
      rw [if_neg hc]
      split at h
      · next hetx =>
        cases h
        rw [if_pos hetx]
      · next hetx =>
        rw [if_neg hetx]
        exact ih h

theorem turn_ne_nil (h : turn r w = some (a, r', rest)) : 0 < w.length := by
  cases w with
  | nil => cases h
  | cons c w => exact Nat.succ_pos _

def acknowledge (r : Recv) : Recv := if r.kState = sendType then handleSendPacket r else r

theorem turn_intact {noise : List UInt8} (h : Noise noise) {seq : ℕ} {p : Packet}
    (hp : p.WellFormed) (hseq : seq < 64) :
    turn r (noise ++ encode seq p) = some (.ack (accept seq p { r with sendParms := [] }).n,
      acknowledge (accept seq p { r with sendParms := [] }), []) := by
  rw [turn_noise h, encode, turn, if_pos rfl, packet_intact hp hseq]
  rfl

/-- The sequence number of a copy, if the receiver comes to it. -/
def seqRead (w : List UInt8) : Option ℕ :=
  match w.dropWhile (· ≠ startChar) with
  | _ :: length :: seq :: _ =>
    if isControl length || isControl seq then none else some (untochar seq)
  | _ => none

/-- The checkpoint that an error behind it goes back to. -/
def base (w : List UInt8) (r : Recv) : Recv :=
  match seqRead w with
  | none => r
  | some n => checkpoint n r

/-- The receiver is back at a checkpoint. -/
structure BackAt (r r' : Recv) : Prop where
  hisQuote : r'.hisQuote = r.hisQuote
  lastN : r'.lastN = r.lastN
  addr : r'.addr = r.addrSaved
  addrSaved : r'.addrSaved = r.addrSaved
  escape : r'.escape = r.escapeSaved
  escapeSaved : r'.escapeSaved = r.escapeSaved
  mem : ∀ k < r.addrSaved, r'.mem k = r.mem k

/-- What the characters of a packet leave as it is. -/
structure Within (r r' : Recv) : Prop where
  hisQuote : r'.hisQuote = r.hisQuote
  lastN : r'.lastN = r.lastN
  addrSaved : r'.addrSaved = r.addrSaved
  escapeSaved : r'.escapeSaved = r.escapeSaved
  addr : r.addr ≤ r'.addr
  mem : ∀ k < r.addr, r'.mem k = r.mem k

theorem Within.refl (r : Recv) : Within r r := ⟨rfl, rfl, rfl, rfl, Nat.le_refl _, fun _ _ ↦ rfl⟩

theorem Within.trans {r r' r'' : Recv} (h : Within r r') (h' : Within r' r'') : Within r r'' where
  hisQuote := h'.hisQuote.trans h.hisQuote
  lastN := h'.lastN.trans h.lastN
  addrSaved := h'.addrSaved.trans h.addrSaved
  escapeSaved := h'.escapeSaved.trans h.escapeSaved
  addr := Nat.le_trans h.addr h'.addr
  mem k hk := (h'.mem k (Nat.lt_of_lt_of_le hk h.addr)).trans (h.mem k hk)

instance : IsPreorder Recv Within where
  refl := Within.refl
  trans _ _ _ := Within.trans

theorem Within.binDataChar (c : UInt8) (r : Recv) : Within r (Kermit.binDataChar c r) where
  hisQuote := rfl
  lastN := rfl
  addrSaved := rfl
  escapeSaved := rfl
  addr := Nat.le_succ _
  mem _ hk := store_of_lt _ _ hk

theorem Within.dataChar (c : UInt8) (r : Recv) : Within r (Kermit.dataChar c r) := by
  rw [Kermit.dataChar]
  split_ifs
  · rw [kDataChar]
    split_ifs
    · obtain ⟨hquote, hlast, haddr, hescape, hle, hmem⟩ := Within.binDataChar (ktrans c) r
      exact ⟨hquote, hlast, haddr, hescape, hle, hmem⟩
    · exact ⟨rfl, rfl, rfl, rfl, Nat.le_refl _, fun _ _ ↦ rfl⟩
    · exact Within.binDataChar c r
  · exact ⟨rfl, rfl, rfl, rfl, Nat.le_refl _, fun _ _ ↦ rfl⟩
  · exact ⟨rfl, rfl, rfl, rfl, Nat.le_refl _, fun _ _ ↦ rfl⟩
  · exact Within.refl r

theorem keeps_printable : Rx.Keeps Within printable := by
  refine Rx.Keeps.bind Rx.Keeps.getc fun c ↦ ?_
  split_ifs
  · exact Rx.Keeps.error
  · exact Rx.Keeps.pure c

theorem keeps_dataField (length sum : ℕ) : Rx.Keeps Within (dataField length sum) := by
  induction length generalizing sum with
  | zero => exact Rx.Keeps.pure sum
  | succ length ih =>
    apply Rx.Keeps.bind keeps_printable
    intro c
    apply Rx.Keeps.bind (Rx.Keeps.modify (Within.dataChar c))
    intro _
    exact ih _

theorem keeps_packetLength (length sum : ℕ) : Rx.Keeps Within (packetLength length sum) := by
  rw [packetLength]
  split_ifs
  · apply Rx.Keeps.bind keeps_printable
    intro hi
    apply Rx.Keeps.bind keeps_printable
    intro lo
    apply Rx.Keeps.bind keeps_printable
    intro c
    split_ifs
    · exact Rx.Keeps.error
    · exact Rx.Keeps.pure _
  · exact Rx.Keeps.pure _

theorem keeps_packetEnd (sum : ℕ) : Rx.Keeps Within (packetEnd sum) := by
  apply Rx.Keeps.bind keeps_printable
  intro c
  split_ifs
  · exact Rx.Keeps.error
  · refine Rx.Keeps.bind Rx.Keeps.getc fun c ↦ ?_
    split_ifs
    · exact Rx.Keeps.error
    · exact Rx.Keeps.pure _

theorem keeps_packetBody (length sum : ℕ) : Rx.Keeps Within (packetBody length sum) := by
  apply Rx.Keeps.bind keeps_printable
  intro type
  refine Rx.Keeps.bind (Rx.Keeps.modify fun r ↦ ?_) fun _ ↦ ?_
  · exact ⟨rfl, rfl, rfl, rfl, Nat.le_refl _, fun _ _ ↦ rfl⟩
  apply Rx.Keeps.bind (keeps_packetLength _ _)
  intro rest
  apply Rx.Keeps.bind (keeps_dataField _ _)
  intro sum
  exact keeps_packetEnd sum

/-- An error in front of the sequence number goes back to the old checkpoint. -/
theorem backAt_restore (r : Recv) : BackAt r (restore r) :=
  ⟨rfl, rfl, rfl, rfl, rfl, rfl, fun _ _ ↦ rfl⟩

theorem checkpoint_addr (n : ℕ) (r : Recv) : (checkpoint n r).addr = (checkpoint n r).addrSaved := by
  rw [checkpoint]
  split_ifs <;> rfl

theorem checkpoint_escape (n : ℕ) (r : Recv) :
    (checkpoint n r).escape = (checkpoint n r).escapeSaved := by
  rw [checkpoint]
  split_ifs <;> rfl

/-- An error behind it goes back to the one that the packet has left. -/
theorem Within.backAt {r₁ : Recv} {n : ℕ} (h : Within (checkpoint n r) r₁) :
    BackAt (checkpoint n r) (restore r₁) where
  hisQuote := h.hisQuote
  lastN := h.lastN
  addr := h.addrSaved
  addrSaved := h.addrSaved
  escape := h.escapeSaved
  escapeSaved := h.escapeSaved
  mem k hk := h.mem k (by rwa [checkpoint_addr])

theorem printable_control {c : UInt8} (h : isControl c = true) :
    printable.run r (c :: w) = some (none, r, w) := by
  rw [printable, Rx.run_bind_of_some _ (Rx.run_getc_cons c), if_pos h, Rx.run_error]

theorem run_bind_of_control {α : Type} {c : UInt8} (h : isControl c = true) (f : UInt8 → Rx Recv α) :
    (printable >>= f).run r (c :: w) = some (none, r, w) := by
  rw [Rx.run_bind, printable_control h]

theorem seqRead_start (c d : UInt8) (w : List UInt8) : seqRead (startChar :: c :: d :: w) =
    if isControl c || isControl d then none else some (untochar d) := by
  rw [seqRead, List.dropWhile_cons_of_neg (by simp)]

theorem packet_backAt (h : packet.run r w = some (none, r', rest)) :
    BackAt (base (startChar :: w) r) (restore r') := by
  cases w with
  | nil => cases h
  | cons c w =>
  cases hc : isControl c with
  | true =>
    rw [packet, run_bind_of_control hc] at h
    cases h
    have hnone : seqRead (startChar :: c :: rest) = none := by
      cases rest with
      | nil => rw [seqRead, List.dropWhile_cons_of_neg (by simp)]
      | cons d rest => rw [seqRead_start, hc, Bool.true_or, if_pos rfl]
    rw [base, hnone]
    exact backAt_restore r
  | false =>
  rw [packet, Rx.run_bind_of_some _ (printable_cons hc)] at h
  cases w with
  | nil => cases h
  | cons d w =>
  rw [base, seqRead_start, hc, Bool.false_or]
  cases hd : isControl d with
  | true =>
    rw [run_bind_of_control hd] at h
    cases h
    exact backAt_restore r
  | false =>
    rw [Rx.run_bind_of_some _ (printable_cons hd), Rx.run_bind_of_some _ (Rx.run_modify _)] at h
    exact (keeps_packetBody _ _ _ _ _ _ _ h).backAt

theorem checkpoint_sendParms (n : ℕ) (r : Recv) (parms : List UInt8) :
    checkpoint n { r with sendParms := parms } = { checkpoint n r with sendParms := parms } := by
  rw [checkpoint, checkpoint]
  split_ifs <;> rfl

theorem BackAt.of_sendParms {parms : List UInt8}
    (h : BackAt (base w { r with sendParms := parms }) r') : BackAt (base w r) r' := by
  revert h
  rw [base, base]
  cases seqRead w with
  | none =>
    rintro ⟨hquote, hlast, haddr, haddr', hescape, hescape', hmem⟩
    exact ⟨hquote, hlast, haddr, haddr', hescape, hescape', hmem⟩
  | some n =>
    simp only [checkpoint_sendParms]
    rintro ⟨hquote, hlast, haddr, haddr', hescape, hescape', hmem⟩
    exact ⟨hquote, hlast, haddr, haddr', hescape, hescape', hmem⟩

theorem base_cons {c : UInt8} (h : c ≠ startChar) (w : List UInt8) (r : Recv) :
    base (c :: w) r = base w r := by
  rw [base, base, seqRead, seqRead, List.dropWhile_cons_of_pos (by simpa using h)]

theorem turn_nack {n : ℕ} (h : turn r w = some (.nack n, r', rest)) : BackAt (base w r) r' := by
  induction w with
  | nil => cases h
  | cons c w ih =>
    rw [turn] at h
    split_ifs at h with hstart hetx
    · split at h
      · cases h
      · next hp =>
        cases h
        rw [hstart]
        exact (packet_backAt hp).of_sendParms
      · cases h
    · cases h
    · rw [base_cons hstart]
      exact ih h

end Turn

end UBoot.Common.KermitPackets
