import UBoot.Httpd.Connections

namespace UBoot.Httpd.SegmentHandling

open Lib.Memory Appcall Uip Uip.Stack Connections

/-- How many bytes of data a segment has. -/
def dataLen (s : Stack) : ℕ := s.ipLen - (s.tcpHlen + 20)

/-- A connection that has not ended. -/
def Live (c : Conn) : Prop := c.state ≠ .closed ∧ c.state ≠ .timeWait

instance (c : Conn) : Decidable (Live c) := inferInstanceAs (Decidable (_ ∧ _))

/-- The connection goes on in its state, with `m` more bytes acknowledged. -/
structure Moves (m : ℕ) (c c' : Conn) : Prop where
  state : c'.state = c.state
  len : c'.len = c.len
  lport : c'.lport = c.lport
  rcvNxt : c'.rcvNxt.toNat = (c.rcvNxt.toNat + m) % 4294967296

/-- The application has closed, and the peer may still send. -/
def Closing (st : TcpState) : Prop := st = .finWait1 ∨ st = .finWait2 ∨ st = .closing

section

variable {m m' : ℕ} {c c' c'' : Conn} {s t : Stack}

theorem Moves.of_eq (hstate : c'.state = c.state) (hlen : c'.len = c.len)
    (hlport : c'.lport = c.lport) (hrcv : c'.rcvNxt = c.rcvNxt) : Moves 0 c c' := by
  refine ⟨hstate, hlen, hlport, ?_⟩
  rw [hrcv, Nat.add_zero, Nat.mod_eq_of_lt c.rcvNxt.toNat_lt]

theorem Moves.refl (c : Conn) : Moves 0 c c := .of_eq rfl rfl rfl rfl

theorem Moves.rcvNxt_eq (h : Moves 0 c c') : c'.rcvNxt = c.rcvNxt := by
  apply Seq.toNat_inj
  rw [h.rcvNxt, Nat.add_zero, Nat.mod_eq_of_lt c.rcvNxt.toNat_lt]

theorem Moves.trans (h : Moves m c c') (h' : Moves m' c' c'') : Moves (m + m') c c'' := by
  refine ⟨h'.state.trans h.state, h'.len.trans h.len, h'.lport.trans h.lport, ?_⟩
  rw [h'.rcvNxt, h.rcvNxt]
  omega

theorem Closing.ne (h : Closing c.state) :
    c.state ≠ .synRcvd ∧ c.state ≠ .established ∧ c.state ≠ .lastAck ∧ Live c := by
  rw [Live]
  rcases h with h | h | h
  all_goals
    rw [h]
    decide

theorem moves_of_conns (hconns : t.conns = s.conns) (hconn : t.conn = s.conn) :
    Touches (Moves 0) s t := by
  refine ⟨hconn, fun k _ ↦ congrFun hconns k, ?_⟩
  rw [connr, connr, hconns, hconn]
  exact .refl _

theorem touches_moves {r : Stack} (h : Touches (Moves m) s t) (h' : Touches (Moves m') t r) :
    Touches (Moves (m + m')) s r := h.comp h' (h.rel.trans h'.rel)

theorem moves_addRcvNxt (s : Stack) (n : UInt16) : Touches (Moves n.toNat) s (s.addRcvNxt n) :=
  (Touches.refl s).setConn ⟨rfl, rfl, rfl, uipAdd32_toNat _ n⟩

theorem moves_takeData (s : Stack) : Touches (Moves s.len.toNat) s s.takeData := by
  unfold takeData
  split
  · exact (moves_addRcvNxt s s.len).behind rfl rfl
  next hzero =>
    have hlen : s.len.toNat = 0 := by
      rw [UInt16.lt_iff_toNat_lt] at hzero
      change ¬ 0 < s.len.toNat at hzero
      omega
    rw [hlen]
    exact moves_of_conns rfl rfl

/-- Without urgent data nothing is skipped. -/
theorem moves_skipUrgent
    (h : (if s.hasFlag tcpUrg then min (s.urgp % 256) s.len.toNat else s.urgp) = 0) :
    Touches (Moves 0) s s.skipUrgent ∧ s.skipUrgent.len = s.len ∧
      s.skipUrgent.appdata = s.appdata ∧ s.skipUrgent.buf = s.buf ∧
      s.skipUrgent.flags = s.flags := by
  unfold skipUrgent
  dsimp only
  split
  next hurg =>
    rw [if_pos hurg] at h
    rw [h]
    exact ⟨(moves_addRcvNxt s 0).behind rfl rfl, UInt16.sub_zero _, rfl, rfl, rfl⟩
  next hurg =>
    rw [if_neg hurg] at h
    rw [h]
    exact ⟨moves_of_conns rfl rfl, UInt16.sub_zero _, rfl, rfl, rfl⟩

theorem moves_updateMss (s : Stack) : Touches (Moves 0) s s.updateMss := by
  unfold updateMss
  exact (Touches.refl s).setConn (.of_eq rfl rfl rfl rfl)

theorem moves_checkAck (s : Stack) : Touches (Moves 0) s s.checkAck := by
  unfold checkAck
  dsimp only
  split
  · refine ((Touches.refl s).setConn ?_).behind rfl rfl
    split
    · exact .of_eq rfl rfl rfl rfl
    · exact .of_eq rfl rfl rfl rfl
  · exact moves_of_conns rfl rfl

end

/-- What a call with data has: the data of the segment, which is the next one. -/
structure Brings (s t : Stack) : Prop where
  newdata : t.flags.newdata = decide (0 < dataLen s)
  len : t.len.toNat = dataLen s
  appdata : t.appdata = uipLlhLen + 40
  buf : t.buf = s.buf
  seqno : 0 < dataLen s → s.seqno = s.connr.rcvNxt

/-- What `uip_process` makes of a segment for the connection `uip_conn` that does not reset it, up to
the call of the application. -/
inductive Heard (s : Stack) : Before → Prop
  | quiet {t : Stack} (touches : Touches (Moves 0) s t) : Heard s (.done t)
  | ends {t : Stack} (state : Closing s.connr.state)
    (touches : Touches (fun _ c' ↦ Closing c'.state ∨ ¬ Live c') s t) : Heard s (.done t)
  | opens {t : Stack} (state : s.connr.state = .synRcvd)
    (touches : Touches (fun c c' ↦ c'.state = .established ∧ c'.rcvNxt = c.rcvNxt) s t)
    (flags : t.flags = { connected := true }) : Heard s (.call t .appsend)
  | data {t : Stack} (state : s.connr.state = .established) (touches : Touches (Moves (dataLen s)) s t)
    (flags : t.flags = { newdata := t.flags.newdata, ackdata := t.flags.ackdata })
    (event : t.flags.newdata = false → t.flags.ackdata = true)
    (ack : t.flags.ackdata = true → s.connr.len ≠ 0) (nofin : s.hasFlag tcpFin = false)
    (brings : Brings s t) : Heard s (.call t .appsend)
  | fin {t : Stack} (state : s.connr.state = .established) (len : s.connr.len = 0)
    (touches : Touches (Moves (dataLen s + 1)) s t)
    (flags : t.flags = { close := true, newdata := t.flags.newdata })
    (fin : s.hasFlag tcpFin = true) (brings : Brings s t) : Heard s (.call t .finack)
  | closes {t : Stack} (state : Closing s.connr.state)
    (touches : Touches (fun _ c' ↦ Closing c'.state ∨ ¬ Live c') s t)
    (flags : t.flags = { close := true }) : Heard s (.call t .sendAck)
  | last {t : Stack} (state : s.connr.state = .lastAck)
    (touches : Touches (fun c c' ↦ c'.state = .closed ∧ c'.rcvNxt = c.rcvNxt) s t)
    (len : t.len.toNat = dataLen s) (seqno : 0 < dataLen s → s.seqno = s.connr.rcvNxt) :
    Heard s (.call t .drop)

/-- What a tick makes of the connection. -/
inductive Ticks (s : Stack) : Before → Prop
  | quiet {t : Stack} (touches : Touches (Moves 0) s t) : Ticks s (.done t)
  | ends {t : Stack} (state : Closing s.connr.state)
    (touches : Touches (fun _ c' ↦ Closing c'.state ∨ ¬ Live c') s t) : Ticks s (.done t)
  | gives {t : Stack}
    (touches : Touches (fun c c' ↦ c'.state = .closed ∧ c'.rcvNxt = c.rcvNxt) s t)
    (len : t.len = 0) : Ticks s (.call t .sendRst)
  | rexmit {t : Stack} (state : s.connr.state = .established) (outstanding : s.connr.len ≠ 0)
    (touches : Touches (Moves 0) s t) (flags : t.flags = { rexmit := true }) :
    Ticks s (.call t .apprexmit)
  | polls {t : Stack} (state : s.connr.state = .established) (touches : Touches (Moves 0) s t)
    (flags : t.flags = { poll := true }) : Ticks s (.call t .appsend)

/-- A segment whose sequence number is the expected one, behind the test of the acknowledgement. -/
structure Reached (s t : Stack) : Prop where
  touches : Touches (Moves 0) s t
  buf : t.buf = s.buf
  len : t.len.toNat = dataLen s
  appdata : t.appdata = uipLlhLen + 40
  flags : t.flags = { ackdata := FrameIntegrity.acks s s.connr }
  seqno : 0 < dataLen s → s.seqno = s.connr.rcvNxt

section

variable {s t : Stack} {k : ℕ}

theorem stripped_len (h : s.tcpHlen + 20 ≤ s.ipLen) (k : ℕ) :
    (FrameIntegrity.stripped s k).len.toNat = dataLen s := by
  have hlen : (FrameIntegrity.start s).len.toNat = s.ipLen := fixLen_len _
  have hsub := FrameIntegrity.subLen_toNat
    (t := { FrameIntegrity.start s with conn := k, flags := {} })
    (m := s.tcpHlen + 20) (h.trans_eq hlen.symm)
  change (FrameIntegrity.stripped s k).len.toNat + (s.tcpHlen + 20) =
    (FrameIntegrity.start s).len.toNat at hsub
  rw [dataLen]
  omega

theorem stripped_reached (h : s.tcpHlen + 20 ≤ s.ipLen)
    (hseq : ¬ (0 < (FrameIntegrity.stripped s k).len ∧ s.seqno ≠ (s.conns k).rcvNxt)) :
    Reached { s with conn := k } (FrameIntegrity.stripped s k).checkAck := by
  obtain ⟨hbuf, hlen, happ, -, -, hflags⟩ :=
    FrameIntegrity.checkAck_spec (s := s) (t := FrameIntegrity.stripped s k) rfl rfl
  have hconn : Touches (Moves 0) { s with conn := k } (FrameIntegrity.stripped s k) :=
    moves_of_conns rfl rfl
  refine ⟨touches_moves hconn (moves_checkAck _), hbuf, ?_, happ, hflags, ?_⟩
  · rw [hlen]
    exact stripped_len h k
  · intro hpos
    by_contra hne
    refine hseq ⟨?_, hne⟩
    rw [UInt16.lt_iff_toNat_lt, stripped_len h k]
    exact hpos

theorem Reached.len_pos (h : Reached s t) : 0 < t.len ↔ 0 < dataLen s :=
  FrameIntegrity.len_pos_iff h.len

/-- The peer's data and its FIN after the application has closed. -/
theorem Reached.ackData (h : Reached s t) (hclosing : Closing s.connr.state) :
    Touches (fun _ c' ↦ Closing c'.state ∨ ¬ Live c') s
      (if 0 < t.len then t.addRcvNxt t.len else t) := by
  have hstate : t.connr.state = s.connr.state := h.touches.rel.state
  rw [← hstate] at hclosing
  split
  · exact h.touches.setConn (.inl hclosing)
  · exact ⟨h.touches.conn, h.touches.others, .inl hclosing⟩

theorem closing_addRcvNxt {c : Conn} (h : Touches (fun _ c' ↦ Closing c'.state ∨ ¬ Live c') s t)
    (hc : Closing c.state ∨ ¬ Live c) :
    Touches (fun _ c' ↦ Closing c'.state ∨ ¬ Live c') s ((t.setConn c).addRcvNxt 1) := by
  refine Touches.setConn (h.setConn (R := fun _ c' ↦ Closing c'.state ∨ ¬ Live c') hc) ?_
  rw [setConn_connr]
  exact hc

theorem Reached.finWait1 (h : Reached s t) (hstate : s.connr.state = .finWait1) :
    Heard s t.finWait1 := by
  have hclosing : Closing s.connr.state := .inl hstate
  have hdata := h.ackData hclosing
  unfold Stack.finWait1
  generalize (if 0 < t.len then t.addRcvNxt t.len else t) = t at hdata
  dsimp only
  split
  · refine .closes hclosing (Touches.behind (closing_addRcvNxt hdata ?_) rfl rfl) rfl
    split
    · exact .inr fun hlive ↦ hlive.2 rfl
    · exact .inl (.inr (.inr rfl))
  split
  · exact .ends hclosing ((hdata.setConn (.inl (.inr (.inl rfl)))).behind rfl rfl)
  split
  · exact .ends hclosing (hdata.sendNodata tcpAck)
  · exact .ends hclosing (hdata.behind rfl rfl)

theorem Reached.finWait2 (h : Reached s t) (hstate : s.connr.state = .finWait2) :
    Heard s t.finWait2 := by
  have hclosing : Closing s.connr.state := .inr (.inl hstate)
  have hdata := h.ackData hclosing
  unfold Stack.finWait2
  generalize (if 0 < t.len then t.addRcvNxt t.len else t) = t at hdata
  dsimp only
  split
  · refine .closes hclosing (Touches.behind (closing_addRcvNxt hdata ?_) rfl rfl) rfl
    exact .inr fun hlive ↦ hlive.2 rfl
  split
  · exact .ends hclosing (hdata.sendNodata tcpAck)
  · exact .ends hclosing (hdata.behind rfl rfl)

theorem Reached.quiet (h : Reached s t) : Heard s (.done t.drop) := .quiet (h.touches.behind rfl rfl)

theorem Reached.fin (h : Reached s t) (hstate : s.connr.state = .established)
    (hlen : s.connr.len = 0) (hfin : s.hasFlag tcpFin = true) :
    Heard s (.call { t.addRcvNxt (1 + t.len) with
      flags := { close := true, newdata := 0 < t.len } } .finack) := by
  have hsmall : s.ipLen < 65536 := load16_lt s.buf 16
  have hone : (1 + t.len).toNat = dataLen s + 1 := by
    rw [UInt16.toNat_add, h.len, Nat.add_comm]
    change (dataLen s + 1) % 65536 = dataLen s + 1
    rw [dataLen]
    omega
  have hmoves := moves_addRcvNxt t (1 + t.len)
  rw [hone] at hmoves
  have hall := touches_moves h.touches hmoves
  rw [Nat.zero_add] at hall
  refine .fin hstate hlen (hall.behind rfl rfl) rfl hfin ⟨?_, h.len, h.appdata, h.buf, h.seqno⟩
  exact decide_eq_decide.mpr h.len_pos

theorem Reached.data (h : Reached s t) (hstate : s.connr.state = .established)
    (hfin : s.hasFlag tcpFin = false)
    (hurgent : (if s.hasFlag tcpUrg then min (s.urgp % 256) (dataLen s) else s.urgp) = 0) :
    Heard s (if t.skipUrgent.takeData.updateMss.flags.newdata ||
      t.skipUrgent.takeData.updateMss.flags.ackdata then
        .call { t.skipUrgent.takeData.updateMss with slen := 0 } .appsend
      else .done t.skipUrgent.takeData.updateMss.drop) := by
  have hurgp : t.urgp = s.urgp := by rw [urgp, urgp, h.buf]
  obtain ⟨hskip, hlen, happ, hbuf, hflags⟩ := moves_skipUrgent (s := t) (by
    rw [FrameIntegrity.hasFlag_congr h.buf, h.len, hurgp]
    exact hurgent)
  have htake := moves_takeData t.skipUrgent
  rw [hlen, h.len] at htake
  have hall := touches_moves h.touches
    (touches_moves hskip (touches_moves htake (moves_updateMss _)))
  rw [Nat.zero_add, Nat.zero_add, Nat.add_zero] at hall
  obtain ⟨conns, heq⟩ := FrameIntegrity.takeData_eq t.skipUrgent
  have hbehind : t.skipUrgent.takeData.updateMss.flags =
      { ackdata := FrameIntegrity.acks s s.connr, newdata := decide (0 < dataLen s) } := by
    change t.skipUrgent.takeData.flags = _
    have hpos : decide (0 < t.len) = decide (0 < dataLen s) := decide_eq_decide.mpr h.len_pos
    rw [heq, hflags, h.flags, hlen, hpos]
    rfl
  have hbrings : Brings s { t.skipUrgent.takeData.updateMss with slen := 0 } := by
    refine ⟨congrArg UipFlags.newdata hbehind, ?_, ?_, ?_, h.seqno⟩
    · change t.skipUrgent.takeData.len.toNat = _
      rw [heq, hlen, h.len]
    · change t.skipUrgent.takeData.appdata = _
      rw [heq, happ, h.appdata]
    · change t.skipUrgent.takeData.buf = _
      rw [heq, hbuf, h.buf]
  split
  next hevent =>
    refine .data hstate (hall.behind rfl rfl) ?_ ?_ ?_ hfin hbrings
    · change t.skipUrgent.takeData.updateMss.flags = _
      rw [hbehind]
    · intro hnew
      change t.skipUrgent.takeData.updateMss.flags.newdata = false at hnew
      rw [hnew] at hevent
      exact hevent
    · intro hack
      change t.skipUrgent.takeData.updateMss.flags.ackdata = true at hack
      rw [hbehind, FrameIntegrity.acks, Bool.and_eq_true, Bool.and_eq_true,
        decide_eq_true_eq] at hack
      exact hack.1.2
  next hevent =>
    rw [hbehind, Bool.or_eq_true, not_or, decide_eq_true_eq] at hevent
    rw [Nat.eq_zero_of_not_pos hevent.1] at hall
    exact .quiet (hall.behind rfl rfl)

theorem Reached.synRcvd (h : Reached s t) (hstate : s.connr.state = .synRcvd)
    (hdata : FrameIntegrity.acks s s.connr = true → dataLen s = 0) :
    Heard s (if t.flags.ackdata then
      .call { takeData { t.setConn { t.connr with state := .established, len := 0 } with
        flags := { connected := true } } with slen := 0 } .appsend
      else .done t.drop) := by
  split
  next hack =>
    rw [h.flags] at hack
    have hzero : ¬ 0 < t.len := by
      rw [h.len_pos, hdata hack]
      exact Nat.lt_irrefl 0
    have hset : Touches (fun c c' ↦ c'.state = .established ∧ c'.rcvNxt = c.rcvNxt) s
        (t.setConn { t.connr with state := .established, len := 0 }) :=
      h.touches.setConn ⟨rfl, h.touches.rel.rcvNxt_eq⟩
    generalize hx : ({ t.setConn { t.connr with state := .established, len := 0 } with
      flags := { connected := true } } : Stack) = x
    have hnone : x.takeData = x := by
      unfold takeData
      refine if_neg ?_
      rw [← hx]
      exact hzero
    rw [hnone, ← hx]
    exact .opens hstate (hset.behind rfl rfl) rfl
  · exact h.quiet

theorem Reached.switchState (h : Reached s t) (hlive : Live s.connr)
    (hdata : s.connr.state = .synRcvd → FrameIntegrity.acks s s.connr = true → dataLen s = 0)
    (hurgent : s.connr.state = .established → s.hasFlag tcpFin = false →
      (if s.hasFlag tcpUrg then min (s.urgp % 256) (dataLen s) else s.urgp) = 0) :
    Heard s t.switchState := by
  have hsame : t.connr.state = s.connr.state := h.touches.rel.state
  unfold Stack.switchState
  dsimp only
  split
  next hstate => exact h.synRcvd (hsame.symm.trans hstate) (hdata (hsame.symm.trans hstate))
  next hstate =>
    unfold Stack.established
    split
    next hfin =>
      rw [FrameIntegrity.hasFlag_congr h.buf] at hfin
      split
      · exact h.quiet
      next hlen =>
        exact h.fin (hsame.symm.trans hstate) (h.touches.rel.len.symm.trans (not_not.mp hlen)) hfin
    next hfin =>
      rw [FrameIntegrity.hasFlag_congr h.buf, Bool.not_eq_true] at hfin
      exact h.data (hsame.symm.trans hstate) hfin (hurgent (hsame.symm.trans hstate) hfin)
  next hstate =>
    split
    · have hset : Touches (fun c c' ↦ c'.state = .closed ∧ c'.rcvNxt = c.rcvNxt) s
          (t.setConn { t.connr with state := .closed }) :=
        h.touches.setConn ⟨rfl, h.touches.rel.rcvNxt_eq⟩
      exact .last (hsame.symm.trans hstate) (hset.behind rfl rfl) h.len h.seqno
    · exact h.quiet
  next hstate => exact h.finWait1 (hsame.symm.trans hstate)
  next hstate => exact h.finWait2 (hsame.symm.trans hstate)
  next hstate => exact absurd (hsame.symm.trans hstate) hlive.2
  next hstate =>
    split
    · refine .ends (.inr (.inr (hsame.symm.trans hstate))) (Touches.behind
        (h.touches.setConn (c := { t.connr with state := .timeWait, timer := 0 })
          (.inr fun hlive ↦ hlive.2 rfl)) rfl rfl)
    · exact h.quiet
  next hstate => exact absurd (hsame.symm.trans hstate) hlive.1

theorem frame_reset (h : FrameIntegrity.segmentOf s = some k) (hrst : s.hasFlag tcpRst = true) :
    ∃ t, s.input = some (.call t .drop) ∧ t.flags = { abort := true } ∧
      Touches (fun c c' ↦ c'.state = .closed ∧ c'.rcvNxt = c.rcvNxt) { s with conn := k } t := by
  have hconn : Touches (Moves 0) { s with conn := k }
      { FrameIntegrity.start s with conn := k, flags := {} } := moves_of_conns rfl rfl
  have hset : Touches (fun c c' ↦ c'.state = .closed ∧ c'.rcvNxt = c.rcvNxt) { s with conn := k }
      (setConn { FrameIntegrity.start s with conn := k, flags := {} }
        { s.conns k with state := .closed }) := hconn.setConn ⟨rfl, rfl⟩
  rw [FrameIntegrity.input_of_some h, FrameIntegrity.found_eq, if_pos hrst]
  exact ⟨_, rfl, rfl, hset.behind rfl rfl⟩

theorem frame_heard (h : FrameIntegrity.segmentOf s = some k) (hrst : s.hasFlag tcpRst = false)
    (hlive : Live (s.conns k)) (hheader : s.tcpHlen + 20 ≤ s.ipLen)
    (hdata : (s.conns k).state = .synRcvd → FrameIntegrity.acks s (s.conns k) = true →
      s.seqno = (s.conns k).rcvNxt → dataLen s = 0)
    (hurgent : dataLen s = 0 ∨ s.seqno = (s.conns k).rcvNxt →
      ∀ m ∈ FrameIntegrity.skipped s (s.conns k) (dataLen s), m = 0) :
    ∃ b, s.input = some b ∧ Heard { s with conn := k } b := by
  refine ⟨_, FrameIntegrity.input_of_some h, ?_⟩
  rw [FrameIntegrity.found_eq, if_neg (by rw [hrst]; decide)]
  split
  · have hconn : Touches (Moves 0) { s with conn := k } (FrameIntegrity.stripped s k) :=
      moves_of_conns rfl rfl
    exact .quiet (hconn.sendNodata tcpAck)
  next hseq =>
    have hreached := stripped_reached hheader hseq
    have hnext : dataLen s = 0 ∨ s.seqno = (s.conns k).rcvNxt :=
      (Nat.eq_zero_or_pos _).imp_right hreached.seqno
    refine hreached.switchState hlive ?_ ?_
    · intro hstate hack
      exact hnext.elim id (hdata hstate hack)
    · intro hstate hfin
      refine hurgent hnext _ ?_
      change FrameIntegrity.skipped s (s.conns k) (dataLen s) = some _
      change (s.conns k).state = .established at hstate
      rw [FrameIntegrity.skipped, hstate]
      change (if s.hasFlag tcpFin then _ else _) = _
      change s.hasFlag tcpFin = false at hfin
      rw [if_neg (by rw [hfin]; decide)]
      rfl

theorem timer_ticks (hlive : Live s.connr) : Ticks s s.timer := by
  have hstart : Touches (Moves 0) s
      { s with appdata := uipLlhLen + 40, iss := uipAdd32 s.iss 1, len := 0 } := moves_of_conns rfl rfl
  unfold Stack.timer
  dsimp only
  split
  next hwait =>
    have hclosing : Closing s.connr.state := .inr (.inl (hwait.resolve_left hlive.2))
    refine .ends hclosing (Touches.behind (hstart.setConn ?_) rfl rfl)
    split
    · exact .inr fun hlive' ↦ hlive'.1 rfl
    · exact .inl hclosing
  split
  next hclosed => exact absurd hclosed hlive.1
  split
  next hlen =>
    split
    next htimer =>
      split
      · have hset : Touches (fun c c' ↦ c'.state = .closed ∧ c'.rcvNxt = c.rcvNxt) s (Stack.setConn
            { s with appdata := uipLlhLen + 40, iss := uipAdd32 s.iss 1, len := 0 }
            { s.connr with timer := s.connr.timer - 1, state := .closed }) :=
          hstart.setConn ⟨rfl, rfl⟩
        exact .gives (hset.behind rfl rfl) rfl
      next hmax =>
        have hset : Touches (Moves 0) s (Stack.setConn
            { s with appdata := uipLlhLen + 40, iss := uipAdd32 s.iss 1, len := 0 }
            { s.connr with
              timer := uipRto <<< (if 4 < s.connr.nrtx then 4 else s.connr.nrtx)
              nrtx := s.connr.nrtx + 1 }) := hstart.setConn (.of_eq rfl rfl rfl rfl)
        split
        next hsyn => exact .quiet hset.sendSynack
        next hest => exact .rexmit hest hlen (hset.behind rfl rfl) rfl
        next => exact .quiet (hset.sendNodata _)
        next => exact .quiet (hset.sendNodata _)
        next => exact .quiet (hset.sendNodata _)
        next => exact .quiet (hset.behind rfl rfl)
    next =>
      have hset : Touches (Moves 0) s (Stack.setConn
          { s with appdata := uipLlhLen + 40, iss := uipAdd32 s.iss 1, len := 0 }
          { s.connr with timer := s.connr.timer - 1 }) := hstart.setConn (.of_eq rfl rfl rfl rfl)
      exact .quiet (hset.behind rfl rfl)
  next hlen =>
    split
    next hest => exact .polls hest (hstart.behind rfl rfl) rfl
    · exact .quiet (hstart.behind rfl rfl)

end

end UBoot.Httpd.SegmentHandling
