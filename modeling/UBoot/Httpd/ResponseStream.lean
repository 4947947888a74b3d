import UBoot.Httpd.Transmit

namespace UBoot.Httpd.ResponseStream

open Lib.Memory Lib.CString Cgi Appcall Uip Uip.Stack Connections Transmit

/-- How many bytes have been acknowledged since `snd_nxt` was `first`. -/
def ackedSince (first : Seq) (c : Conn) : ℕ :=
  (c.sndNxt.toNat + 4294967296 - first.toNat) % 4294967296

/-- The data of the packet in `uip_buf`. -/
def payload (s : Stack) : List UInt8 := bytes s.buf 54 (s.len.toNat - 40)

/-- An event for the connection `k`. -/
def IsFor (srv : Server) (k : ℕ) : Event → Prop
  | .frame buf len _ =>
    FrameIntegrity.segmentOf { srv.stack with buf := buf, len := len } = some k
  | .timer j _ => j = k

/-- The client acknowledges and sends data, but does not close or reset the connection. -/
def Plain (srv : Server) (k : ℕ) : Event → Prop
  | .frame buf len _ =>
    FrameIntegrity.segmentOf { srv.stack with buf := buf, len := len } = some k →
      Stack.hasFlag { srv.stack with buf := buf, len := len } tcpFin = false ∧
        Stack.hasFlag { srv.stack with buf := buf, len := len } tcpRst = false
  | .timer .. => True

instance (srv : Server) (k : ℕ) : (e : Event) → Decidable (IsFor srv k e)
  | .frame .. => inferInstanceAs (Decidable (_ = _))
  | .timer .. => inferInstanceAs (Decidable (_ = _))

instance (srv : Server) (k : ℕ) : (e : Event) → Decidable (Plain srv k e)
  | .frame .. => inferInstanceAs (Decidable (_ → _ ∧ _))
  | .timer .. => .isTrue trivial

/-- A tick finds the outstanding segment retransmitted as often as it may be. -/
def Exhausted (srv : Server) (k : ℕ) : Event → Prop
  | .frame .. => False
  | .timer j _ => j = k ∧ (srv.stack.conns k).timer = 0 ∧ (srv.stack.conns k).nrtx = uipMaxrtx

/-- A tick finds the timer run out. -/
def Due (srv : Server) (k : ℕ) : Event → Prop
  | .frame .. => False
  | .timer .. => (srv.stack.conns k).timer = 0

/-- One event while `file` is sent on the connection `k`, and the server behind it: what is sent are
the outstanding bytes of the file, a retransmission and the answer to an acknowledgement are not
empty, the server closes when all bytes are acknowledged, and resets when it gives up. -/
structure Streams (file : List UInt8) (first : Seq) (k : ℕ) (srv : Server) (e : Event)
    (r : Server) : Prop where
  segment : IsFor srv k e → payload r.stack ≠ [] →
    (r.stack.conns k).len.toNat ≤ (file.drop (ackedSince first (r.stack.conns k))).length ∧
    payload r.stack = (file.drop (ackedSince first (r.stack.conns k))).take
      (r.stack.conns k).len.toNat
  sent : IsFor srv k e → (r.stack.conns k).state = .established →
    Due srv k e ∨ (r.stack.conns k).sndNxt ≠ (srv.stack.conns k).sndNxt → payload r.stack ≠ []
  closes : (r.stack.conns k).state = .finWait1 ↔
    ackedSince first (r.stack.conns k) = file.length
  resets : (r.stack.conns k).state = .closed ↔ Exhausted srv k e
  state : (r.stack.conns k).state = .established ∨ (r.stack.conns k).state = .finWait1 ∨
    (r.stack.conns k).state = .closed

/-- What the connection keeps while nothing is acknowledged. -/
structure Frozen (c c' : Conn) : Prop where
  mss : MssOk c → MssOk c'
  initialmss : c'.initialmss = c.initialmss
  state : c'.state = c.state
  lport : c'.lport = c.lport
  len : c'.len = c.len
  sndNxt : c'.sndNxt = c.sndNxt

/-- The connection and its application while `file` is sent. -/
structure Sending (file : List UInt8) (first : Seq) (c : Conn) (hs : Hs) : Prop where
  small : file.length < 65536
  mss : MssOk c
  initialmss : c.initialmss ≠ 0
  state : c.state = .established
  lport : c.lport = 80
  serves : hs.state = .file
  script : hs.script = none
  dataptr : hs.dataptr = file.drop (ackedSince first c)
  count : hs.count.toNat + ackedSince first c = file.length
  len_ne : c.len ≠ 0
  len_le : c.len ≤ hs.count
  len_mss : c.len ≤ uipTcpMss

theorem Frozen.refl (c : Conn) : Frozen c c := ⟨id, rfl, rfl, rfl, rfl, rfl⟩

theorem Frozen.trans {c c' c'' : Conn} (h : Frozen c c') (h' : Frozen c' c'') : Frozen c c'' :=
  ⟨fun hmss ↦ h'.mss (h.mss hmss), h'.initialmss.trans h.initialmss, h'.state.trans h.state,
    h'.lport.trans h.lport, h'.len.trans h.len, h'.sndNxt.trans h.sndNxt⟩

section

variable {file : List UInt8} {first : Seq} {c c' : Conn} {hs : Hs}

theorem Sending.frozen (h : Sending file first c hs) (hf : Frozen c c') :
    Sending file first c' hs := by
  have hacked : ackedSince first c' = ackedSince first c := by
    rw [ackedSince, ackedSince, hf.sndNxt]
  refine ⟨h.small, hf.mss h.mss, ?_, ?_, ?_, h.serves, h.script, ?_, ?_, ?_, ?_, ?_⟩
  · rw [hf.initialmss]
    exact h.initialmss
  · rw [hf.state]
    exact h.state
  · rw [hf.lport]
    exact h.lport
  · rw [hacked]
    exact h.dataptr
  · rw [hacked]
    exact h.count
  · rw [hf.len]
    exact h.len_ne
  · rw [hf.len]
    exact h.len_le
  · rw [hf.len]
    exact h.len_mss

theorem Sending.pos (h : Sending file first c hs) : 0 < c.len.toNat ∧ c.len.toNat ≤ hs.count.toNat := by
  refine ⟨?_, UInt16.le_iff_toNat_le.mp h.len_le⟩
  have hne := h.len_ne
  rw [Ne, ← UInt16.toNat_inj] at hne
  exact Nat.pos_of_ne_zero hne

theorem ackedSince_add {n : UInt16} (hlt : ackedSince first c + n.toNat < 4294967296)
    (h : c'.sndNxt = uipAdd32 c.sndNxt n) : ackedSince first c' = ackedSince first c + n.toNat := by
  have hadd := uipAdd32_toNat c.sndNxt n
  have hfirst := first.toNat_lt
  have hc := c.sndNxt.toNat_lt
  rw [ackedSince] at hlt
  rw [ackedSince, ackedSince, h, hadd]
  omega

end

section

variable {s t : Stack}

theorem frozen_of_conns (hconns : t.conns = s.conns) (hconn : t.conn = s.conn) :
    Touches Frozen s t := by
  refine ⟨hconn, fun k _ ↦ congrFun hconns k, ?_⟩
  rw [connr, connr, hconns, hconn]
  exact .refl _

theorem frozen_setConn {c : Conn} (hc : Frozen s.connr c) : Touches Frozen s (s.setConn c) :=
  (Touches.refl s).setConn hc

theorem frozen_addRcvNxt (n : UInt16) : Touches Frozen s (s.addRcvNxt n) :=
  frozen_setConn ⟨id, rfl, rfl, rfl, rfl, rfl⟩

theorem frozen_takeData : Touches Frozen s s.takeData := by
  unfold takeData
  split
  · exact (frozen_addRcvNxt s.len).behind rfl rfl
  · exact frozen_of_conns rfl rfl

theorem frozen_skipUrgent : Touches Frozen s s.skipUrgent := by
  unfold skipUrgent
  dsimp only
  split
  · exact (frozen_addRcvNxt _).behind rfl rfl
  · exact frozen_of_conns rfl rfl

theorem frozen_updateMss : Touches Frozen s s.updateMss := by
  refine ⟨rfl, touches_updateMss.others, touches_updateMss.rel.mss, ?_, ?_, ?_, ?_, ?_⟩
  all_goals
    unfold updateMss
    dsimp only
    rw [setConn_connr]

/-- The segment size is what the client has announced, or its window if that is smaller. -/
theorem updateMss_ne (h : s.connr.initialmss ≠ 0) : s.updateMss.connr.mss ≠ 0 := by
  unfold updateMss
  dsimp only
  rw [setConn_connr]
  dsimp only
  split
  · exact h
  next hwnd =>
    rw [not_or] at hwnd
    exact hwnd.2

/-- The outstanding bytes are acknowledged, or not. -/
def advance (c : Conn) (ack : Bool) : Conn :=
  { c with sndNxt := if ack then uipAdd32 c.sndNxt c.len else c.sndNxt }

theorem advance_checkAck (h : s.flags = {}) :
    Touches (fun c c' ↦ Frozen (advance c s.checkAck.flags.ackdata) c') s s.checkAck ∧
      (s.checkAck.flags.ackdata = true → s.connr.len ≠ 0) ∧
      s.checkAck.flags = { ackdata := s.checkAck.flags.ackdata } := by
  unfold checkAck
  dsimp only
  split
  next hack =>
    refine ⟨((Touches.refl s).setConn ?_).behind rfl rfl, fun _ ↦ hack.2.1, rfl⟩
    split
    · exact ⟨id, rfl, rfl, rfl, rfl, rfl⟩
    · exact ⟨id, rfl, rfl, rfl, rfl, rfl⟩
  next =>
    rw [h]
    exact ⟨⟨rfl, fun _ _ ↦ rfl, .refl _⟩, nofun, rfl⟩

end

section

variable {s t : Stack}

theorem payload_nil (h : s.len.toNat ≤ 40) : payload s = [] := by
  rw [payload, Nat.sub_eq_zero_of_le h]
  rfl

/-- What `uip_process` makes of a segment on an open connection. -/
inductive Received (s : Stack) : Before → Prop
  | quiet {t : Stack} (touches : Touches Frozen s t) (len : t.len.toNat ≤ 40) :
    Received s (.done t)
  | call {t : Stack}
    (touches : Touches (fun c c' ↦ Frozen (advance c t.flags.ackdata) c') s t)
    (mss : t.connr.mss ≠ 0)
    (flags : t.flags = { newdata := t.flags.newdata, ackdata := t.flags.ackdata })
    (event : t.flags.newdata = false → t.flags.ackdata = true)
    (ack : t.flags.ackdata = true → s.connr.len ≠ 0) (slen : t.slen = 0) :
    Received s (.call t .appsend)

theorem frozen_sendNodata (flags : UInt8) : Touches Frozen s (s.tcpSendNodata flags) ∧
    (s.tcpSendNodata flags).len = 40 := by
  obtain ⟨buf, ipid, h⟩ := s.tcpSendNodata_eq flags
  rw [h]
  exact ⟨frozen_of_conns rfl rfl, rfl⟩

theorem established_received (h : Touches (fun c c' ↦ Frozen (advance c t.flags.ackdata) c') s t)
    (hflags : t.flags = { ackdata := t.flags.ackdata })
    (hack : t.flags.ackdata = true → s.connr.len ≠ 0) (hfin : t.hasFlag tcpFin = false)
    (hmss : t.connr.initialmss ≠ 0) : Received s t.established := by
  have hurgent : t.skipUrgent.flags = t.flags := by
    unfold skipUrgent
    dsimp only
    split <;> rfl
  obtain ⟨conns, htake⟩ := FrameIntegrity.takeData_eq t.skipUrgent
  have hbehind : t.skipUrgent.takeData.updateMss.flags =
      { t.flags with newdata := t.flags.newdata || decide (0 < t.skipUrgent.len) } := by
    change t.skipUrgent.takeData.flags = _
    rw [htake, hurgent]
  have htaken : Touches Frozen t t.skipUrgent.takeData :=
    frozen_skipUrgent.comp frozen_takeData (frozen_skipUrgent.rel.trans frozen_takeData.rel)
  have hall : Touches Frozen t t.skipUrgent.takeData.updateMss :=
    htaken.comp frozen_updateMss (htaken.rel.trans frozen_updateMss.rel)
  have hmss' : t.skipUrgent.takeData.updateMss.connr.mss ≠ 0 := by
    apply updateMss_ne
    rw [htaken.rel.initialmss]
    exact hmss
  have hnofin : ¬ t.hasFlag tcpFin = true := by rw [hfin]; decide
  unfold Stack.established
  rw [if_neg hnofin]
  dsimp only
  generalize t.skipUrgent.takeData.updateMss = r at hbehind hall hmss'
  have hackdata : r.flags.ackdata = t.flags.ackdata := by rw [hbehind]
  have hshape : r.flags = { newdata := r.flags.newdata, ackdata := r.flags.ackdata } := by
    rw [hbehind, hflags]
  have htouches : Touches (fun c c' ↦ Frozen (advance c r.flags.ackdata) c') s r := by
    rw [hackdata]
    exact h.comp hall (h.rel.trans hall.rel)
  split
  next hevent =>
    refine .call (htouches.behind rfl rfl) hmss' hshape ?_ ?_ rfl
    · intro hnew
      change r.flags.newdata = false at hnew
      rw [hnew, Bool.false_or] at hevent
      exact hevent
    · intro ha
      change r.flags.ackdata = true at ha
      rw [hackdata] at ha
      exact hack ha
  next hevent =>
    rw [Bool.or_eq_true, not_or, Bool.not_eq_true, Bool.not_eq_true] at hevent
    rw [hevent.2] at htouches
    exact .quiet (htouches.behind rfl rfl) (Nat.zero_le _)

theorem frame_received {k : ℕ} (h : FrameIntegrity.segmentOf s = some k)
    (hfin : s.hasFlag tcpFin = false) (hrst : s.hasFlag tcpRst = false)
    (hstate : (s.conns k).state = .established) (hmss : (s.conns k).initialmss ≠ 0) :
    ∃ b, s.input = some b ∧ Received { s with conn := k } b := by
  refine ⟨_, FrameIntegrity.input_of_some h, ?_⟩
  have hnorst : ¬ s.hasFlag tcpRst = true := by rw [hrst]; decide
  have hconn : Touches Frozen { s with conn := k } (FrameIntegrity.stripped s k) :=
    frozen_of_conns rfl rfl
  rw [FrameIntegrity.found_eq, if_neg hnorst]
  split
  · obtain ⟨hsend, hlen⟩ := frozen_sendNodata (s := FrameIntegrity.stripped s k) tcpAck
    refine .quiet (hconn.comp hsend (hconn.rel.trans hsend.rel)) ?_
    rw [tcpSendAck, hlen]
    decide
  · obtain ⟨hadvance, hack, hflags⟩ := advance_checkAck (s := FrameIntegrity.stripped s k) rfl
    obtain ⟨hbuf, -⟩ := FrameIntegrity.checkAck_spec (s := s) (t := FrameIntegrity.stripped s k)
      rfl rfl
    have hstate' : (FrameIntegrity.stripped s k).checkAck.connr.state = .established :=
      hadvance.rel.state.trans hstate
    have hopen : (FrameIntegrity.stripped s k).checkAck.switchState =
        (FrameIntegrity.stripped s k).checkAck.established := by
      rw [switchState]
      simp only [hstate']
    rw [hopen]
    apply established_received (hconn.comp hadvance hadvance.rel) hflags hack
    · rw [FrameIntegrity.hasFlag_congr hbuf]
      exact hfin
    · rw [hadvance.rel.initialmss]
      exact hmss

/-- The segment at `apprexmit`, where at least the outstanding bytes are copied. -/
theorem apprexmit_payload (hlen : s.connr.len ≠ 0) (hle : s.connr.len ≤ s.slen)
    (hmss : s.connr.len ≤ uipTcpMss) :
    payload s.apprexmit = bytes s.sappdata 0 s.connr.len.toNat := by
  have hsmall : s.connr.len.toNat ≤ 1446 := UInt16.le_iff_toNat_le.mp hmss
  have hlen' := uint16_pos hlen
  have hslen : 0 < s.slen := UInt16.lt_of_lt_of_le hlen' hle
  have hcopy : s.apprexmit = (Stack.tcpSendNoopts { (s.putBytes 54
      (bytes s.sappdata 0 s.slen.toNat)).putBytes 47 [tcpAck ||| tcpPsh] with
      len := s.connr.len + 40 }) := by
    unfold apprexmit
    rw [if_pos hslen]
    exact if_pos ⟨hslen, hlen'⟩
  have htotal : (s.connr.len + 40).toNat = s.connr.len.toNat + 40 := by
    rw [UInt16.toNat_add, Nat.mod_eq_of_lt]
    · rfl
    · change s.connr.len.toNat + 40 < 65536
      omega
  have hdata : ∀ k, 54 ≤ k → (Stack.tcpSendNoopts { (s.putBytes 54
      (bytes s.sappdata 0 s.slen.toNat)).putBytes 47 [tcpAck ||| tcpPsh] with
      len := s.connr.len + 40 }).buf k = store s.buf 54 (bytes s.sappdata 0 s.slen.toNat) k := by
    intro k hk
    rw [tcpSendNoopts_data _ hk]
    exact putBytes_data _ (by decide) hk
  rw [payload, hcopy, tcpSendNoopts_len, htotal, Nat.add_sub_cancel,
    bytes_congr fun k hk _ ↦ hdata k hk]
  obtain ⟨m, hm⟩ := Nat.exists_eq_add_of_le (UInt16.le_iff_toNat_le.mp hle)
  have hstore : bytes (store s.buf 54 (bytes s.sappdata 0 s.slen.toNat)) 54 s.slen.toNat =
      bytes s.sappdata 0 s.slen.toNat :=
    bytes_store_of_length s.buf (bytes_length s.sappdata 0 s.slen.toNat)
  rw [hm] at hstore ⊢
  rw [← bytes_take, hstore, bytes_take]

theorem touches_write (f : Conn → Conn) (n : UInt16) :
    Touches (fun c c' ↦ c' = f c) t { t.setConn (f t.connr) with slen := n } :=
  ((Touches.refl t).setConn (R := fun c c' ↦ c' = f c) rfl).behind rfl rfl

def finish1 (c : Conn) : Conn := { c with len := 1, state := .finWait1, nrtx := 0 }

def outstand (m : UInt16) (c : Conn) : Conn := { c with len := m, nrtx := 0 }

theorem appsend_close (habort : t.flags.abort = false) (hclose : t.flags.close = true) :
    Touches (fun c c' ↦ c' = finish1 c) t t.appsend ∧ payload t.appsend = [] := by
  have hsend : t.appsend =
      Stack.tcpSendNodata { t.setConn (finish1 t.connr) with slen := 0 } (tcpFin ||| tcpAck) := by
    unfold appsend
    dsimp only
    rw [if_neg (by rw [habort]; decide), if_pos hclose]
    rfl
  rw [hsend]
  refine ⟨(touches_write finish1 0).sendNodata _, payload_nil ?_⟩
  rw [(frozen_sendNodata _).2]
  decide

theorem appsend_send {m : UInt16} (habort : t.flags.abort = false) (hclose : t.flags.close = false)
    (hslen : 0 < t.slen)
    (hm : (if (if t.flags.ackdata then 0 else t.connr.len) = 0 then min t.slen t.connr.mss
      else t.connr.len) = m)
    (hne : m ≠ 0) (hmss : m ≤ uipTcpMss) :
    Touches (fun c c' ↦ c' = outstand m c) t t.appsend ∧
      payload t.appsend = bytes t.sappdata 0 m.toNat := by
  have hsend : t.appsend =
      Stack.apprexmit { t.setConn (outstand m t.connr) with slen := m } := by
    unfold appsend
    dsimp only
    rw [if_neg (by rw [habort]; decide), if_neg (by rw [hclose]; decide), if_pos hslen, ← hm]
    cases t.flags.ackdata with
    | false => rfl
    | true => rfl
  have hset := touches_write (t := t) (outstand m) m
  have hlen : Conn.len (Stack.connr { t.setConn (outstand m t.connr) with slen := m }) = m :=
    congrArg Conn.len hset.rel
  rw [hsend]
  refine ⟨hset.behind (apprexmit_conns _).1 (apprexmit_conns _).2, ?_⟩
  rw [apprexmit_payload]
  · rw [hlen]
    rfl
  · rwa [hlen]
  · rw [hlen]
    exact UInt16.le_refl m
  · rwa [hlen]

theorem appsend_again (habort : t.flags.abort = false) (hclose : t.flags.close = false)
    (hack : t.flags.ackdata = false) (hslen : 0 < t.slen) (hne : t.connr.len ≠ 0)
    (hmss : t.connr.len ≤ uipTcpMss) :
    t.appsend.connr = outstand t.connr.len t.connr ∧
      payload t.appsend = bytes t.sappdata 0 t.connr.len.toNat := by
  have hm : (if (if t.flags.ackdata then 0 else t.connr.len) = 0 then min t.slen t.connr.mss
      else t.connr.len) = t.connr.len := by
    rw [hack]
    exact if_neg hne
  obtain ⟨htouches, hpayload⟩ := appsend_send habort hclose hslen hm hne hmss
  exact ⟨htouches.rel, hpayload⟩

theorem appsend_next (habort : t.flags.abort = false) (hclose : t.flags.close = false)
    (hzero : (if t.flags.ackdata then 0 else t.connr.len) = 0) (hslen : 0 < t.slen)
    (hmss : t.connr.mss ≠ 0) (hle : t.connr.mss ≤ uipTcpMss) :
    ∃ m, m ≠ 0 ∧ m ≤ t.slen ∧ m ≤ uipTcpMss ∧ t.appsend.connr = outstand m t.connr ∧
      payload t.appsend = bytes t.sappdata 0 m.toNat := by
  obtain ⟨hleft, hright⟩ := uint16_min_le t.slen t.connr.mss
  have hne : min t.slen t.connr.mss ≠ 0 := by
    rw [show min t.slen t.connr.mss = if t.slen ≤ t.connr.mss then t.slen else t.connr.mss from rfl]
    split
    · exact (UInt16.ne_of_lt hslen).symm
    · exact hmss
  have hm : (if (if t.flags.ackdata then 0 else t.connr.len) = 0 then min t.slen t.connr.mss
      else t.connr.len) = min t.slen t.connr.mss := if_pos hzero
  have hmss' := UInt16.le_trans hright hle
  obtain ⟨htouches, hpayload⟩ := appsend_send habort hclose hslen hm hne hmss'
  exact ⟨_, hne, hleft, hmss', htouches.rel, hpayload⟩

end

section

variable {fs : Fs} {n : ℕ} {file : List UInt8} {first : Seq} {s t : Stack} {c : Conn} {hs : Hs}
  {u : ℕ → Uninit} {p : Packet} {b : Board} {g : Vars} {Q : Prop}

/-- The application state behind the acknowledgement of `len` bytes. -/
def ackedHs (hs : Hs) (len : UInt16) : Hs :=
  { hs with count := hs.count - len, dataptr := hs.dataptr.drop len.toNat }

/-- An acknowledgement moves the file position, and closes at the end of the file. -/
theorem httpdAppcall_acked {h : App} {len : UInt16} (hconnected : h.flags.connected = false)
    (hpoll : h.flags.poll = false) (hack : h.flags.ackdata = true) (hserves : h.hs.state = .file)
    (hscript : h.hs.script = none) (hle : len ≤ h.hs.count) :
    httpdAppcall fs (n + 1) len u p h = some (p.appdata, { h with
      hs := ackedHs h.hs len
      flags := if h.hs.count - len = 0 then { close := true } else h.flags
      send := some (h.hs.dataptr.drop len.toNat, h.hs.count - len) }) := by
  have hnoget : ¬ (h.flags.newdata = true ∧ h.hs.state = .noget) := by
    rw [hserves]
    nofun
  have hfunc : ¬ h.hs.state = .func := by
    rw [hserves]
    nofun
  have hsends : HttpState.file ≠ .func := nofun
  unfold httpdAppcall
  rw [if_neg (by rw [hconnected]; decide), if_neg (by rw [hpoll]; decide), if_neg hnoget, callCgi,
    if_neg hfunc, acked, if_pos hack, if_pos hle]
  split
  next hzero =>
    simp only [hscript, uipClose, hserves, ackedHs]
    rw [if_pos hzero]
    exact congrArg some (if_pos ⟨hsends, rfl⟩)
  next hzero =>
    simp only [hserves, ackedHs]
    rw [if_neg hzero]
    exact congrArg some (if_pos ⟨hsends, hpoll⟩)

theorem Sending.appcall (h : Sending file first c hs) {flags : UipFlags} (hlen : t.connr.len = c.len)
    (hport : t.connr.lport = 80) (hconnected : flags.connected = false) (hpoll : flags.poll = false) :
    uipAppcall fs n t.connr u p ⟨hs, b, g, flags, none, []⟩ = some (p.appdata,
      if flags.ackdata then
        ⟨ackedHs hs c.len, b, g, if hs.count - c.len = 0 then { close := true } else flags,
          some (hs.dataptr.drop c.len.toNat, hs.count - c.len), []⟩
      else ⟨hs, b, g, flags, some (hs.dataptr, hs.count), []⟩) := by
  unfold uipAppcall
  rw [if_pos hport, hlen]
  cases hack : flags.ackdata with
  | false =>
    apply httpdAppcall_again hconnected hpoll hack
    · rw [h.serves]
      nofun
    · rw [h.serves]
      nofun
  | true => exact httpdAppcall_acked hconnected hpoll hack h.serves h.script h.len_le

/-- Behind a call of the application the file is still being sent, with the packet that goes out, or
the connection is closed; `Q` holds if no data go out. -/
inductive Outcome (file : List UInt8) (first : Seq) (Q : Prop) : Conn → Hs → List UInt8 → Prop
  | silent {c : Conn} {hs : Hs} (sending : Sending file first c hs) (silent : Q) :
    Outcome file first Q c hs []
  | sends {c : Conn} {hs : Hs} {data : List UInt8} (sending : Sending file first c hs)
    (segment : c.len.toNat ≤ (file.drop (ackedSince first c)).length ∧
      data = (file.drop (ackedSince first c)).take c.len.toNat) : Outcome file first Q c hs data
  | closes {c : Conn} {hs : Hs} (state : c.state = .finWait1)
    (acked : ackedSince first c = file.length) : Outcome file first Q c hs []

theorem bytes_take_getD {l : List UInt8} {m : ℕ} (h : m ≤ l.length) :
    bytes (fun k ↦ l.getD k 0) 0 m = l.take m := by
  obtain ⟨d, hd⟩ := Nat.exists_eq_add_of_le h
  have hall := bytes_getD l 0
  rw [hd] at hall
  rw [← bytes_take (m := fun k ↦ l.getD k 0) 0 m d, hall]

theorem Sending.length (h : Sending file first c hs) : hs.dataptr.length = hs.count.toNat := by
  have hcount := h.count
  rw [h.dataptr, List.length_drop]
  omega

theorem Sending.segment (h : Sending file first c hs) :
    c.len.toNat ≤ (file.drop (ackedSince first c)).length ∧
      bytes (fun k ↦ hs.dataptr.getD k 0) 0 c.len.toNat =
        (file.drop (ackedSince first c)).take c.len.toNat := by
  have hle : c.len.toNat ≤ hs.dataptr.length := by
    rw [h.length]
    exact h.pos.2
  rw [bytes_take_getD hle, ← h.dataptr]
  exact ⟨hle, rfl⟩

/-- The state behind an acknowledgement that leaves bytes to be sent. -/
theorem Sending.acked (h : Sending file first c hs) {c' : Conn} (hc : Frozen (advance c true) c')
    {m : UInt16} (hne : m ≠ 0) (hcount : m ≤ hs.count - c.len) (hmss : m ≤ uipTcpMss) :
    Sending file first (outstand m c') (ackedHs hs c.len) := by
  have hsum := h.count
  have hsmall := h.small
  have hlen := h.pos
  have hsub : (hs.count - c.len).toNat = hs.count.toNat - c.len.toNat :=
    UInt16.toNat_sub_of_le _ _ h.len_le
  have hadd : ackedSince first (outstand m c') = ackedSince first c + c.len.toNat :=
    ackedSince_add (by omega) hc.sndNxt
  refine ⟨hsmall, hc.mss h.mss, ?_, ?_, ?_, h.serves, h.script, ?_, ?_, hne, hcount, hmss⟩
  · change c'.initialmss ≠ 0
    rw [hc.initialmss]
    exact h.initialmss
  · exact hc.state.trans h.state
  · exact hc.lport.trans h.lport
  · rw [hadd, ← List.drop_drop, ← h.dataptr]
    rfl
  · rw [hadd]
    change (hs.count - c.len).toNat + _ = _
    omega

theorem Sending.appsend (h : Sending file first c hs) (hc : Frozen (advance c t.flags.ackdata) t.connr)
    (hmss : t.connr.mss ≠ 0)
    (hflags : t.flags = { newdata := t.flags.newdata, ackdata := t.flags.ackdata })
    {a : List UInt8} {h' : App}
    (hr : uipAppcall fs n t.connr u p ⟨hs, b, g, t.flags, none, []⟩ = some (a, h')) :
    Outcome file first Q (handBack t a h').appsend.connr h'.hs
      (payload (handBack t a h').appsend) := by
  have hport : t.connr.lport = 80 := hc.lport.trans h.lport
  rw [h.appcall hc.len hport (by rw [hflags]) (by rw [hflags]), Option.some_inj] at hr
  obtain ⟨rfl, rfl⟩ := Prod.mk.inj hr
  clear hr
  have habort : t.flags.abort = false := by rw [hflags]
  have hclose : t.flags.close = false := by rw [hflags]
  have hpos := h.pos
  cases hack : t.flags.ackdata with
  | false =>
    rw [hack] at hc
    simp only [Bool.false_eq_true, if_false]
    generalize hback : handBack t p.appdata _ = s
    have hconnr : s.connr = t.connr := by rw [← hback]; rfl
    have hslen : s.slen = hs.count := by rw [← hback]; rfl
    have hsappdata : s.sappdata = fun k ↦ hs.dataptr.getD k 0 := by rw [← hback]; rfl
    have hsflags : s.flags = t.flags := by rw [← hback]; rfl
    have hlen : s.connr.len = c.len := by rw [hconnr]; exact hc.len
    have hfrozen : Frozen c (outstand c.len s.connr) := by
      rw [hconnr]
      exact hc.trans ⟨id, rfl, rfl, rfl, hc.len.symm, rfl⟩
    obtain ⟨hsent, hpayload⟩ := appsend_again (t := s) (by rwa [hsflags]) (by rwa [hsflags])
      (by rwa [hsflags])
      (by rw [hslen]; exact UInt16.lt_of_lt_of_le (uint16_pos h.len_ne) h.len_le)
      (by rw [hlen]; exact h.len_ne) (by rw [hlen]; exact h.len_mss)
    rw [hlen] at hsent hpayload
    have hsending := h.frozen hfrozen
    rw [hsent, hpayload, hsappdata]
    exact .sends hsending hsending.segment
  | true =>
    rw [hack] at hc
    simp only [if_true]
    have hsub : (hs.count - c.len).toNat = hs.count.toNat - c.len.toNat :=
      UInt16.toNat_sub_of_le _ _ h.len_le
    have hsum := h.count
    have hsmall := h.small
    by_cases hzero : hs.count - c.len = 0
    · rw [if_pos hzero]
      generalize hback : handBack t p.appdata _ = s
      have hconnr : s.connr = t.connr := by rw [← hback]; rfl
      have hsflags : s.flags = { close := true } := by rw [← hback]; rfl
      obtain ⟨hclosed, hpayload⟩ := appsend_close (t := s) (by rw [hsflags]) (by rw [hsflags])
      rw [hzero] at hsub
      change 0 = _ at hsub
      have hadd : ackedSince first (finish1 t.connr) = ackedSince first c + c.len.toNat :=
        ackedSince_add (by omega) hc.sndNxt
      have hrel := hclosed.rel
      rw [hconnr] at hrel
      rw [hpayload, hrel]
      refine .closes rfl ?_
      rw [hadd]
      omega
    · rw [if_neg hzero]
      generalize hback : handBack t p.appdata _ = s
      have hconnr : s.connr = t.connr := by rw [← hback]; rfl
      have hslen : s.slen = hs.count - c.len := by rw [← hback]; rfl
      have hsappdata : s.sappdata = fun k ↦ (ackedHs hs c.len).dataptr.getD k 0 := by
        rw [← hback]
        rfl
      have hsflags : s.flags = t.flags := by rw [← hback]; rfl
      obtain ⟨m, hne, hle, hmax, hsent, hpayload⟩ := appsend_next (t := s) (by rwa [hsflags])
        (by rwa [hsflags]) (if_pos (by rwa [hsflags])) (by rw [hslen]; exact uint16_pos hzero)
        (by rwa [hconnr]) (by rw [hconnr]; exact (hc.mss h.mss).1)
      rw [hslen] at hle
      rw [hconnr] at hsent
      have hsending := h.acked hc hne hle hmax
      rw [hsent, hpayload, hsappdata]
      exact .sends hsending hsending.segment

theorem Sending.rexmit (h : Sending file first c hs) (hc : Frozen c t.connr)
    (hflags : t.flags = { rexmit := true }) {a : List UInt8} {h' : App}
    (hr : uipAppcall fs n t.connr u p ⟨hs, b, g, t.flags, none, []⟩ = some (a, h')) :
    Outcome file first Q (handBack t a h').apprexmit.connr h'.hs
      (payload (handBack t a h').apprexmit) := by
  have hport : t.connr.lport = 80 := hc.lport.trans h.lport
  have hack : ¬ t.flags.ackdata = true := by rw [hflags]; decide
  rw [h.appcall hc.len hport (by rw [hflags]) (by rw [hflags]), if_neg hack, Option.some_inj] at hr
  obtain ⟨rfl, rfl⟩ := Prod.mk.inj hr
  clear hr
  have hsending := h.frozen hc
  generalize hback : handBack t p.appdata _ = s
  have hconnr : s.connr = t.connr := by rw [← hback]; rfl
  have hslen : s.slen = hs.count := by rw [← hback]; rfl
  have hsappdata : s.sappdata = fun k ↦ hs.dataptr.getD k 0 := by rw [← hback]; rfl
  have hsent : s.apprexmit.connr = t.connr := (apprexmit_connr s).trans hconnr
  rw [← hconnr] at hsending
  have hpayload := apprexmit_payload hsending.len_ne (by rw [hslen]; exact hsending.len_le)
    hsending.len_mss
  rw [hsent, hpayload, hsappdata, ← hconnr]
  exact .sends hsending hsending.segment

end

section

variable {fs : Fs} {n : ℕ} {T : Prop} {file : List UInt8} {first : Seq} {s t : Stack} {k : ℕ}
  {srv : Server} {e : Event} {r : Server × Option Stack} {u : ℕ → Uninit} {b : Before}

/-- A connection is reused when it is closed, or waits for its end. -/
theorem pickConn_state {conns : ℕ → Conn} {ks : List ℕ} {best : Option ℕ}
    (hbest : ∀ j ∈ best, (conns j).state = .timeWait) (h : pickConn conns ks best = some k) :
    (conns k).state = .closed ∨ (conns k).state = .timeWait := by
  induction ks generalizing best with
  | nil => exact .inr (hbest k h)
  | cons j ks ih =>
    rw [pickConn] at h
    split_ifs at h with hclosed hwait
    · obtain rfl := Option.some.inj h
      exact .inl hclosed
    · refine ih ?_ h
      intro i hi
      obtain rfl := Option.some.inj hi
      exact hwait.1
    · exact ih hbest h

theorem foundListen_conns (h : s.foundListen = some t) (hclosed : (s.conns k).state ≠ .closed)
    (hwait : (s.conns k).state ≠ .timeWait) : t.conns k = s.conns k := by
  unfold foundListen at h
  split at h
  · obtain rfl := Option.some.inj h
    rfl
  next j hpick =>
    obtain ⟨c, -, rfl⟩ := Option.map_eq_some_iff.mp h
    obtain ⟨buf, ipid, hsend⟩ := (setConn { s with conn := j } c).tcpSendSynack_eq
    have hne : k ≠ j := by
      rintro rfl
      exact (pickConn_state (fun j hj ↦ by cases hj) hpick).elim hclosed hwait
    rw [hsend]
    exact if_neg hne

/-- A frame that is no segment of a connection leaves the connections alone that have not ended. -/
theorem input_others (h : FrameIntegrity.segmentOf s = none) (hr : s.input = some b)
    (hclosed : (s.conns k).state ≠ .closed) (hwait : (s.conns k).state ≠ .timeWait) :
    ∃ t, b = .done t ∧ t.conns k = s.conns k := by
  rw [FrameIntegrity.input_eq] at hr
  split_ifs at hr with hvhl hfrag hdest hip hproto hicmp
  · exact ⟨_, (Option.some.inj hr).symm, rfl⟩
  · exact ⟨_, (Option.some.inj hr).symm, rfl⟩
  · exact ⟨_, (Option.some.inj hr).symm, rfl⟩
  · exact ⟨_, (Option.some.inj hr).symm, rfl⟩
  · unfold Stack.tcpInput at hr
    split at hr
    · exact ⟨_, (Option.some.inj hr).symm, rfl⟩
    next htcp =>
      rw [FrameIntegrity.segmentOf, if_pos ⟨not_not.mp hvhl, hfrag, not_not.mp hdest,
        not_not.mp hip, hproto, not_not.mp htcp⟩] at h
      have hreset : ∀ x : Stack, x.reset.conns = x.conns := by
        intro x
        obtain ⟨buf, ipid, len, heq⟩ := x.reset_eq
        rw [heq]
      rw [FrameIntegrity.start_isFor, h] at hr
      dsimp only at hr
      split_ifs at hr
      · exact ⟨_, (Option.some.inj hr).symm, congrFun (hreset _) k⟩
      · obtain ⟨t, ht, rfl⟩ := Option.map_eq_some_iff.mp hr
        exact ⟨t, rfl, foundListen_conns (s := FrameIntegrity.start s) ht hclosed hwait⟩
      · exact ⟨_, (Option.some.inj hr).symm, congrFun (hreset _) k⟩
  · exact ⟨_, (Option.some.inj hr).symm, rfl⟩
  · obtain ⟨buf, len, heq⟩ := (FrameIntegrity.start s).icmpInput_eq
    refine ⟨_, (Option.some.inj hr).symm, ?_⟩
    rw [heq]
    rfl

theorem finish_others (hb : Processed T s b) (hconns : s.conns = srv.stack.conns) (hk : k ≠ s.conn)
    (hr : finish fs n srv u b = some r) :
    r.1.stack.conns k = srv.stack.conns k ∧ r.1.hs k = srv.hs k := by
  cases hb with
  | @done t htouches =>
    obtain rfl := Option.some.inj hr
    exact ⟨(htouches.others k hk).trans (congrFun hconns k), rfl⟩
  | @call t next htouches hcalled =>
    obtain ⟨⟨a, h'⟩, -, rfl⟩ := Option.map_eq_some_iff.mp hr
    have hother : k ≠ t.conn := by rwa [htouches.conn]
    obtain ⟨-, hothers, -⟩ := resume_touches (handBack t a h') next
    refine ⟨?_, if_neg hother⟩
    exact (hothers k hother).trans ((htouches.others k hk).trans (congrFun hconns k))

theorem Outcome.streams {Q : Prop} {data : List UInt8} {r : Server}
    (h : Outcome file first Q (r.stack.conns k) (r.hs k) data)
    (hdata : IsFor srv k e → payload r.stack = data)
    (hsilent : IsFor srv k e → Q →
      ¬ Due srv k e ∧ (r.stack.conns k).sndNxt = (srv.stack.conns k).sndNxt)
    (hgives : ¬ Exhausted srv k e) :
    Streams file first k srv e r ∧ ((r.stack.conns k).state = .established →
      Sending file first (r.stack.conns k) (r.hs k)) := by
  generalize hc : r.stack.conns k = c at h hsilent ⊢
  generalize r.hs k = hs at h ⊢
  have hopen : Sending file first c hs → (c.state = .finWait1 ↔ ackedSince first c = file.length) ∧
      (c.state = .closed ↔ Exhausted srv k e) ∧ c.state = .established := by
    intro hsending
    have hstate := hsending.state
    have hcount := hsending.count
    have hpos := hsending.pos
    rw [hstate]
    exact ⟨iff_of_false nofun (by omega), iff_of_false nofun hgives, rfl⟩
  cases h with
  | silent hsending hq =>
    obtain ⟨hcloses, hresets, hstate⟩ := hopen hsending
    rw [← hc] at hcloses hresets hstate
    refine ⟨⟨?_, ?_, hcloses, hresets, .inl hstate⟩, fun _ ↦ hsending⟩
    · intro hfor hne
      exact absurd (hdata hfor) hne
    · intro hfor _ hdue
      obtain ⟨hnot, hsame⟩ := hsilent hfor hq
      rw [← hc] at hsame
      exact absurd hsame (hdue.resolve_left hnot)
  | sends hsending hsegment =>
    obtain ⟨hcloses, hresets, hstate⟩ := hopen hsending
    rw [← hc] at hcloses hresets hstate hsegment
    have hpos := hsending.pos.1
    rw [← hc] at hpos
    refine ⟨⟨?_, ?_, hcloses, hresets, .inl hstate⟩, fun _ ↦ hsending⟩
    · intro hfor _
      rw [hdata hfor]
      exact hsegment
    · intro hfor _ _
      rw [hdata hfor, hsegment.2, ← List.length_pos_iff, List.length_take]
      omega
  | closes hstate hacked =>
    refine ⟨⟨?_, ?_, ?_, ?_, ?_⟩, fun hest ↦ ?_⟩
    · intro hfor hne
      exact absurd (hdata hfor) hne
    · intro _ hest
      rw [hc, hstate] at hest
      cases hest
    · rw [hc]
      exact iff_of_true hstate hacked
    · rw [hc, hstate]
      exact iff_of_false nofun hgives
    · rw [hc]
      exact .inr (.inl hstate)
    · rw [hstate] at hest
      cases hest

/-- The connection is given up. -/
structure Gone (c c' : Conn) : Prop where
  state : c'.state = .closed
  sndNxt : c'.sndNxt = c.sndNxt
  lport : c'.lport = c.lport
  len : c'.len = c.len

/-- A tick for an open connection with outstanding bytes. -/
inductive Ticked (s : Stack) : Before → Prop
  | waits {t : Stack} (touches : Touches Frozen s t) (len : t.len = 0) (timer : s.connr.timer ≠ 0) :
    Ticked s (.done t)
  | rexmit {t : Stack} (touches : Touches Frozen s t) (nrtx : s.connr.nrtx ≠ uipMaxrtx)
    (flags : t.flags = { rexmit := true }) : Ticked s (.call t .apprexmit)
  | gives {t : Stack} (touches : Touches Gone s t) (timer : s.connr.timer = 0)
    (nrtx : s.connr.nrtx = uipMaxrtx) (flags : t.flags = { timedout := true }) :
    Ticked s (.call t .sendRst)

theorem timer_ticked (hstate : s.connr.state = .established) (hlen : s.connr.len ≠ 0) :
    Ticked s s.timer := by
  have hstart : Touches Keeps s
      { s with appdata := uipLlhLen + 40, iss := uipAdd32 s.iss 1, len := 0 } := .of_conns rfl rfl
  unfold Stack.timer
  dsimp only
  split
  next hwait =>
    rcases hwait with hwait | hwait
    · cases hwait.symm.trans hstate
    · cases hwait.symm.trans hstate
  split
  next hclosed => cases hclosed.symm.trans hstate
  split
  next =>
    split
    next htimer =>
      split
      next hmax =>
        have hnrtx : s.connr.nrtx = uipMaxrtx := by
          rcases hmax with hmax | ⟨hsyn, -⟩
          · exact hmax
          · cases hsyn.symm.trans hstate
        have hset : Touches Gone s (Stack.setConn
            { s with appdata := uipLlhLen + 40, iss := uipAdd32 s.iss 1, len := 0 }
            { s.connr with timer := s.connr.timer - 1, state := .closed }) :=
          hstart.setConn ⟨rfl, rfl, rfl, rfl⟩
        exact .gives (hset.behind rfl rfl) htimer hnrtx rfl
      next hmax =>
        rw [not_or] at hmax
        have hset : Touches Frozen s (Stack.setConn
            { s with appdata := uipLlhLen + 40, iss := uipAdd32 s.iss 1, len := 0 }
            { s.connr with
              timer := uipRto <<< (if 4 < s.connr.nrtx then 4 else s.connr.nrtx)
              nrtx := s.connr.nrtx + 1 }) :=
          hstart.setConn ⟨id, rfl, rfl, rfl, rfl, rfl⟩
        split
        next hsyn => cases hsyn.symm.trans hstate
        next => exact .rexmit (hset.behind rfl rfl) hmax.1 rfl
        next hfin => cases hfin.symm.trans hstate
        next hclosing => cases hclosing.symm.trans hstate
        next hlast => cases hlast.symm.trans hstate
        next hno _ _ _ => exact absurd hstate hno
    next htimer =>
      have hset : Touches Frozen s (Stack.setConn
          { s with appdata := uipLlhLen + 40, iss := uipAdd32 s.iss 1, len := 0 }
          { s.connr with timer := s.connr.timer - 1 }) :=
        hstart.setConn ⟨id, rfl, rfl, rfl, rfl, rfl⟩
      exact .waits (hset.behind rfl rfl) rfl htimer
  next hzero => exact absurd hlen hzero

theorem conns_of_touches {R : Conn → Conn → Prop} (h : Touches R s t) :
    t.conns s.conn = t.connr := by
  rw [connr, h.conn]

/-- The server behind a call of the application for the connection `k`. -/
theorem finish_call {next : Resume} (hconn : t.conn = k)
    (hr : finish fs n srv u (.call t next) = some r) :
    ∃ p a h', uipAppcall fs n t.connr u p ⟨srv.hs k, srv.board, srv.vars, t.flags, none, []⟩ =
        some (a, h') ∧ r.1.stack = (handBack t a h').resume next ∧
      r.1.stack.conns k = r.1.stack.connr ∧ r.1.hs k = h'.hs := by
  obtain ⟨⟨a, h'⟩, happ, rfl⟩ := Option.map_eq_some_iff.mp hr
  rw [hconn] at happ
  refine ⟨_, a, h', happ, rfl, ?_, if_pos hconn.symm⟩
  have hresume : ((handBack t a h').resume next).conn = k :=
    (resume_touches (handBack t a h') next).conn.trans hconn
  rw [connr]
  exact congrArg _ hresume.symm

theorem Sending.frame (h : Sending file first (srv.stack.conns k) (srv.hs k)) {s : Stack}
    (hconns : s.conns = srv.stack.conns) (hconn : s.conn = k) (hb : Received s b)
    (hr : finish fs n srv u b = some r) :
    Outcome file first ((r.1.stack.conns k).sndNxt = (srv.stack.conns k).sndNxt)
      (r.1.stack.conns k) (r.1.hs k) (payload r.1.stack) := by
  subst hconn
  have hconnr : s.connr = srv.stack.conns s.conn := congrFun hconns s.conn
  rw [← hconnr] at h
  cases hb with
  | @quiet t htouches hlen =>
    obtain rfl := Option.some.inj hr
    change Outcome file first ((t.conns s.conn).sndNxt = _) (t.conns s.conn) (srv.hs s.conn)
      (payload t)
    rw [conns_of_touches htouches, payload_nil hlen, ← hconnr]
    exact .silent (h.frozen htouches.rel) htouches.rel.sndNxt
  | @call t htouches hmss hflags hevent hack hslen =>
    obtain ⟨p, a, h', happ, hstack, hconns', hhs⟩ := finish_call htouches.conn hr
    rw [hconns', hhs, hstack]
    exact h.appsend htouches.rel hmss hflags happ

theorem Sending.tick (h : Sending file first (srv.stack.conns k) (srv.hs k)) {s : Stack}
    (hconns : s.conns = srv.stack.conns) (hconn : s.conn = k) (hb : Ticked s b)
    (hr : finish fs n srv u b = some r) (u' : ℕ → Uninit) :
    Streams file first k srv (.timer k u') r.1 ∧ ((r.1.stack.conns k).state = .established →
      Sending file first (r.1.stack.conns k) (r.1.hs k)) := by
  subst hconn
  have hconnr : s.connr = srv.stack.conns s.conn := congrFun hconns s.conn
  rw [← hconnr] at h
  cases hb with
  | @waits t htouches hlen htimer =>
    obtain rfl := Option.some.inj hr
    have hout : Outcome file first True (t.conns s.conn) (srv.hs s.conn) [] := by
      rw [conns_of_touches htouches]
      exact .silent (h.frozen htouches.rel) trivial
    refine hout.streams (fun _ ↦ payload_nil ?_) (fun _ _ ↦ ⟨?_, ?_⟩) ?_
    · change t.len.toNat ≤ 40
      rw [hlen]
      decide
    · intro hdue
      rw [hconnr] at htimer
      exact htimer hdue
    · change (t.conns s.conn).sndNxt = _
      rw [conns_of_touches htouches, ← hconnr]
      exact htouches.rel.sndNxt
    · rintro ⟨-, hzero, -⟩
      rw [← hconnr] at hzero
      exact htimer hzero
  | @rexmit t htouches hnrtx hflags =>
    obtain ⟨p, a, h', happ, hstack, hconns', hhs⟩ := finish_call htouches.conn hr
    have hout : Outcome file first False (r.1.stack.conns s.conn) (r.1.hs s.conn)
        (payload r.1.stack) := by
      rw [hconns', hhs, hstack]
      exact h.rexmit htouches.rel hflags happ
    refine hout.streams (fun _ ↦ rfl) (fun _ hq ↦ hq.elim) ?_
    rintro ⟨-, -, hmax⟩
    rw [← hconnr] at hmax
    exact hnrtx hmax
  | @gives t htouches htimer hnrtx hflags =>
    obtain ⟨p, a, h', happ, hstack, hconns', hhs⟩ := finish_call htouches.conn hr
    obtain ⟨hsend, hlen⟩ := frozen_sendNodata (s := handBack t a h') (tcpRst ||| tcpAck)
    have hgone : (r.1.stack.conns s.conn).state = .closed := by
      rw [hconns', hstack]
      exact hsend.rel.state.trans htouches.rel.state
    have hacked : ackedSince first (r.1.stack.conns s.conn) = ackedSince first s.connr := by
      rw [hconns', hstack, ackedSince, ackedSince]
      have hnxt := hsend.rel.sndNxt.trans htouches.rel.sndNxt
      exact congrArg (fun x : Seq ↦ (x.toNat + 4294967296 - first.toNat) % 4294967296) hnxt
    have hcount := h.count
    have hpos := h.pos
    have hempty : payload r.1.stack = [] := by
      rw [hstack]
      exact payload_nil (by rw [resume, hlen]; decide)
    refine ⟨⟨fun _ hne ↦ absurd hempty hne, fun _ hest ↦ ?_, ?_, ?_, .inr (.inr hgone)⟩,
      fun hest ↦ ?_⟩
    · rw [hgone] at hest
      cases hest
    · rw [hgone, hacked]
      exact iff_of_false (by decide) (by omega)
    · rw [hgone]
      rw [hconnr] at htimer hnrtx
      exact iff_of_true rfl ⟨rfl, htimer, hnrtx⟩
    · rw [hgone] at hest
      cases hest

theorem step_others (hclosed : (srv.stack.conns k).state ≠ .closed)
    (hwait : (srv.stack.conns k).state ≠ .timeWait) (hnot : ¬ IsFor srv k e)
    (hr : step fs n srv e = some r) :
    r.1.stack.conns k = srv.stack.conns k ∧ r.1.hs k = srv.hs k := by
  cases e with
  | frame buf len u =>
    obtain ⟨b, hb, hr⟩ := Option.bind_eq_some_iff.mp hr
    cases hseg : FrameIntegrity.segmentOf { srv.stack with buf := buf, len := len } with
    | none =>
      obtain ⟨t, rfl, ht⟩ := input_others hseg hb hclosed hwait
      obtain rfl := Option.some.inj hr
      exact ⟨ht, rfl⟩
    | some j =>
      have hne : k ≠ j := by
        rintro rfl
        exact hnot hseg
      rw [FrameIntegrity.input_of_some hseg, Option.some_inj] at hb
      rw [← hb] at hr
      exact finish_others (s := { FrameIntegrity.start { srv.stack with buf := buf, len := len } with
        conn := j }) (found_processed (T := False) _) rfl hne hr
  | timer j u =>
    have hne : k ≠ j := fun heq ↦ hnot heq.symm
    exact finish_others (s := { srv.stack with conn := j }) (timer_processed _) rfl hne hr

theorem Sending.step (h : Sending file first (srv.stack.conns k) (srv.hs k)) (hplain : Plain srv k e)
    (hr : Transmit.step fs n srv e = some r) :
    Streams file first k srv e r.1 ∧ ((r.1.stack.conns k).state = .established →
      Sending file first (r.1.stack.conns k) (r.1.hs k)) := by
  by_cases hfor : IsFor srv k e
  · cases e with
    | frame buf len u =>
      obtain ⟨b, hb, hr⟩ := Option.bind_eq_some_iff.mp hr
      obtain ⟨hfin, hrst⟩ := hplain hfor
      obtain ⟨b', hb', hreceived⟩ := frame_received hfor hfin hrst h.state h.initialmss
      obtain rfl := Option.some.inj (hb.symm.trans hb')
      have hout := h.frame (s := { srv.stack with buf := buf, len := len, conn := k }) rfl rfl
        hreceived hr
      exact hout.streams (fun _ ↦ rfl) (fun _ hsame ↦ ⟨id, hsame⟩) id
    | timer j u =>
      obtain rfl := hfor
      exact h.tick (s := { srv.stack with conn := j }) rfl rfl
        (timer_ticked h.state h.len_ne) hr u
  · have hstate := h.state
    obtain ⟨hconn, hhs⟩ := step_others (by rw [hstate]; decide) (by rw [hstate]; decide) hfor hr
    have hout : Outcome file first True (r.1.stack.conns k) (r.1.hs k) [] := by
      rw [hconn, hhs]
      exact .silent h trivial
    refine hout.streams (fun hfor' ↦ absurd hfor' hfor) (fun hfor' ↦ absurd hfor' hfor) ?_
    cases e with
    | frame buf len u => exact id
    | timer j u => exact fun hgives ↦ hfor hgives.1

/-- The events up to the end of the connection, each with the server that it meets. -/
def openSteps (fs : Fs) (n : ℕ) (k : ℕ) (srv : Server) (es : List Event) : List (Server × Event) :=
  (steps fs n srv es).takeWhile fun x ↦ (x.1.stack.conns k).state = .established

theorem Sending.run (h : Sending file first (srv.stack.conns k) (srv.hs k)) (es : List Event)
    (hplain : ∀ x ∈ openSteps fs n k srv es, Plain x.1 k x.2) :
    ∀ x ∈ openSteps fs n k srv es, ∀ r, Transmit.step fs n x.1 x.2 = some r →
      Streams file first k x.1 x.2 r.1 := by
  induction es generalizing srv with
  | nil => simp [openSteps, steps]
  | cons e es ih =>
    have hopen : openSteps fs n k srv (e :: es) =
        (srv, e) :: ((Transmit.step fs n srv e).elim [] fun r ↦ openSteps fs n k r.1 es) := by
      rw [openSteps, steps, List.takeWhile_cons_of_pos (by simpa using h.state)]
      cases Transmit.step fs n srv e <;> rfl
    rw [hopen, List.forall_mem_cons] at hplain
    rw [hopen, List.forall_mem_cons]
    refine ⟨fun r hr ↦ (h.step hplain.1 hr).1, ?_⟩
    cases hr : Transmit.step fs n srv e with
    | none => simp
    | some r =>
      rw [hr] at hplain
      by_cases hstate : (r.1.stack.conns k).state = .established
      · exact ih ((h.step hplain.1 hr).2 hstate) hplain.2
      · have hnil : openSteps fs n k r.1 es = [] := by
          rw [openSteps]
          cases es with
          | nil => rfl
          | cons d ds => exact List.takeWhile_cons_of_neg (by simpa using hstate)
        simp [hnil]

end

section

variable {fs : Fs} {n : ℕ} {u : Uninit} {p : Packet} {h h' : App} {a : List UInt8}

/-- The application has just opened a file. -/
def Fresh (fs : Fs) (hs : Hs) : Prop :=
  ∃ page, hs = ⟨.file, UInt16.ofNat (fs.data page).length, fs.data page, none⟩

/-- The application has aborted or closed. -/
def Ended (h : App) : Prop := h.flags = { abort := true } ∨ h.flags = { close := true }

/-- What there is behind `serve`. -/
def Served (fs : Fs) (h : App) : Prop := Fresh fs h.hs ∨ h.hs.state = .func ∨ Ended h

/-- What `serve` does: it opens a page, or runs a script that starts with the call of `upgrade_cgi`; a
page that is taken for a script is refused. -/
structure ServedFrom (fs : Fs) (h h' : App) : Prop where
  calls : h'.calls = h.calls
  outcome : h'.flags = h.flags ∧ (Fresh fs h'.hs ∨ h'.hs.state = .func) ∨
    h'.flags = { abort := true } ∧ h'.hs.state = h.hs.state

theorem nextScriptstate_servedFrom {page : Page} (hscript : h.hs.script = some (fs.data page))
    (hr : nextScriptstate fs u p (n + 1) h = some (a, h')) : ServedFrom fs h h' := by
  by_cases hpage : page = .cgiIndex
  · rw [hpage, fs.script] at hscript
    unfold nextScriptstate at hr
    rw [hscript] at hr
    obtain ⟨⟨ret, appdata, vars⟩, -, hr⟩ := Option.map_eq_some_iff.mp hr
    obtain ⟨-, rfl⟩ := Prod.mk.inj hr
    exact ⟨rfl, .inl ⟨rfl, .inr rfl⟩⟩
  · have hreply := fs.reply page hpage
    generalize fs.data page = data at hscript hreply
    cases data with
    | nil => cases hreply
    | cons c data =>
      have hc : c = 0x48 := by
        have hand : ((0x48 : UInt8) == c) = true := by
          have h₀ : ((0x48 : UInt8) == c && (ascii "TTP/1.0 ").isPrefixOf data) = true := hreply
          exact (Bool.and_eq_true _ _ ▸ h₀).1
        exact (beq_iff_eq.mp hand).symm
      subst hc
      unfold nextScriptstate at hr
      rw [hscript] at hr
      obtain ⟨-, rfl⟩ := Prod.mk.inj (Option.some.inj hr)
      exact ⟨rfl, .inr ⟨rfl, rfl⟩⟩

theorem serve_servedFrom {offset : ℕ} {page : Page} (hr : serve fs u p offset page h = some (a, h')) :
    ServedFrom fs h h' := by
  unfold serve at hr
  split at hr
  · obtain ⟨hcalls, houtcome⟩ := nextScriptstate_servedFrom rfl hr
    exact ⟨hcalls, houtcome⟩
  · obtain ⟨-, rfl⟩ := Prod.mk.inj (Option.some.inj hr)
    exact ⟨rfl, .inl ⟨rfl, .inl ⟨page, rfl⟩⟩⟩

theorem serve_served {offset : ℕ} {page : Page} (hr : serve fs u p offset page h = some (a, h')) :
    Served fs h' := by
  rcases (serve_servedFrom hr).outcome with ⟨-, hfresh | hfunc⟩ | ⟨habort, -⟩
  · exact .inl hfresh
  · exact .inr (.inl hfunc)
  · exact .inr (.inr (.inl habort))

theorem flagged_quiet (hf : Flagged h h') (hack : h.flags.ackdata = false)
    (hpoll : h.flags.poll = false) : h'.flags.ackdata = false ∧ h'.flags.poll = false := by
  rcases hf with hf | hf | hf
  · rw [hf]
    exact ⟨hack, hpoll⟩
  · rw [hf]
    exact ⟨rfl, rfl⟩
  · rw [hf]
    exact ⟨rfl, rfl⟩

/-- A file that is open at the end of a call without an acknowledgement has been opened in it, and its
first bytes are on their way. -/
theorem callCgi_served {offset : ℕ} {len : UInt16} {u : ℕ → Uninit} (hserved : Served fs h)
    (hack : h.flags.ackdata = false) (hpoll : h.flags.poll = false)
    (hr : callCgi fs offset len u n p h = some (a, h')) (hended : ¬ Ended h')
    (hfile : h'.hs.state = .file) :
    Fresh fs h'.hs ∧ h'.send = some (h'.hs.dataptr, h'.hs.count) := by
  induction n generalizing p h with
  | zero => cases hr
  | succ n ih =>
    unfold callCgi at hr
    split at hr
    next hfunc =>
      obtain ⟨⟨ret, appdata, vars⟩, -, hr⟩ := Option.bind_eq_some_iff.mp hr
      dsimp only at hr
      split at hr
      · obtain ⟨⟨appdata', h₁⟩, hserve, hr⟩ := Option.bind_eq_some_iff.mp hr
        obtain ⟨hack₁, hpoll₁⟩ := flagged_quiet (serve_spec hserve).2.2 hack hpoll
        exact ih (serve_served hserve) hack₁ hpoll₁ hr
      split at hr
      · obtain ⟨⟨appdata', h₁⟩, hserve, hr⟩ := Option.bind_eq_some_iff.mp hr
        obtain ⟨hack₁, hpoll₁⟩ := flagged_quiet (serve_spec hserve).2.2 hack hpoll
        exact ih (serve_served hserve) hack₁ hpoll₁ hr
      · obtain ⟨-, rfl⟩ := Prod.mk.inj (Option.some.inj hr)
        cases hfunc.symm.trans hfile
    next hfunc =>
      rw [acked, if_neg (by rw [hack]; decide)] at hr
      obtain ⟨-, rfl⟩ := Prod.mk.inj (Option.some.inj (hr.symm.trans
        (congrArg some (if_pos ⟨hfunc, hpoll⟩))).symm)
      exact ⟨(hserved.resolve_right fun h ↦ h.elim hfunc hended), rfl⟩

theorem httpdAppcall_served {len : UInt16} {u : ℕ → Uninit} (hconnected : h.flags.connected = false)
    (hpoll : h.flags.poll = false) (hack : h.flags.ackdata = false) (hnew : h.flags.newdata = true)
    (hstate : h.hs.state = .noget ∨ h.hs.state = .func)
    (hr : httpdAppcall fs n len u p h = some (a, h')) (hended : ¬ Ended h')
    (hfile : h'.hs.state = .file) :
    Fresh fs h'.hs ∧ h'.send = some (h'.hs.dataptr, h'.hs.count) := by
  unfold httpdAppcall at hr
  rw [if_neg (by rw [hconnected]; decide), if_neg (by rw [hpoll]; decide)] at hr
  split at hr
  · dsimp only at hr
    split at hr
    · obtain ⟨-, rfl⟩ := Prod.mk.inj (Option.some.inj hr)
      exact absurd (.inl rfl) hended
    · generalize hopen : openPage _ _ h = opened at hr
      have hopened : opened.2.flags = h.flags := by
        rw [← hopen, openPage]
        dsimp only
        split_ifs
        all_goals rfl
      obtain ⟨page, h₁⟩ := opened
      obtain ⟨⟨appdata, h₂⟩, hserve, hr⟩ := Option.bind_eq_some_iff.mp hr
      change h₁.flags = h.flags at hopened
      rw [← hopened] at hack hpoll
      obtain ⟨hack₂, hpoll₂⟩ := flagged_quiet (serve_spec hserve).2.2 hack hpoll
      exact callCgi_served (serve_served hserve) hack₂ hpoll₂ hr hended hfile
  next hnoget =>
    have hfunc : h.hs.state = .func := hstate.resolve_left fun hstate ↦ hnoget ⟨hnew, hstate⟩
    exact callCgi_served (.inr (.inl hfunc)) hack hpoll hr hended hfile

end

section

variable {fs : Fs} {n k : ℕ} {srv : Server} {s t : Stack} {b : Before} {u : ℕ → Uninit}
  {e : Event} {r : Server × Option Stack}

/-- A segment of the client, behind which a file is open that was not open before. -/
structure Opens (k : ℕ) (srv : Server) (e : Event) (r : Server) : Prop where
  segment : ∃ buf len u, e = .frame buf len u ∧ IsFor srv k e
  plain : Plain srv k e
  before : (srv.stack.conns k).state = .established
  waits : (srv.hs k).state = .noget ∨ (srv.hs k).state = .func
  file : (r.hs k).state = .file
  behind : (r.stack.conns k).state = .established

theorem data_pos (fs : Fs) (page : Page) : 0 < (fs.data page).length := by
  by_cases hpage : page = .cgiIndex
  · rw [hpage, fs.script]
    decide
  · have hreply := fs.reply page hpage
    generalize fs.data page = data at hreply ⊢
    cases data with
    | nil => cases hreply
    | cons c data => exact Nat.succ_pos _

theorem ackedSince_self (c : Conn) : ackedSince c.sndNxt c = 0 := by
  rw [ackedSince, Nat.add_sub_cancel_left]

theorem sending_of_appcall (hfs : ∀ page, (fs.data page).length < 65536) {c : Conn} {hs : Hs}
    {b : Board} {g : Vars} {p : Packet} {a : List UInt8} {h' : App}
    (hopen : c.state = .established) (hzero : c.len = 0) (hinitial : c.initialmss ≠ 0)
    (hok : MssOk c) (hwaits : hs.state = .noget ∨ hs.state = .func)
    (hc : Frozen (advance c t.flags.ackdata) t.connr) (hmss : t.connr.mss ≠ 0)
    (hflags : t.flags = { newdata := t.flags.newdata, ackdata := t.flags.ackdata })
    (hack : t.flags.ackdata = false) (hnew : t.flags.newdata = true)
    (hr : uipAppcall fs n t.connr u p ⟨hs, b, g, t.flags, none, []⟩ = some (a, h'))
    (hfile : h'.hs.state = .file)
    (hbehind : (handBack t a h').appsend.connr.state = .established) :
    ∃ page, Sending (fs.data page) (handBack t a h').appsend.connr.sndNxt
        (handBack t a h').appsend.connr h'.hs ∧
      payload (handBack t a h').appsend =
        (fs.data page).take (handBack t a h').appsend.connr.len.toNat := by
  have hended : ¬ Ended h' := by
    intro hended
    apply appsend_closes (t := handBack t a h') _ hbehind
    unfold atApprexmit
    rcases hended with hended | hended
    all_goals
      refine if_pos ?_
      change (h'.flags.abort || h'.flags.close) = true
      rw [hended]
      rfl
  have hport : t.connr.lport = 80 := by
    by_contra hport
    rw [uipAppcall, if_neg hport] at hr
    obtain ⟨-, rfl⟩ := Prod.mk.inj (Option.some.inj hr)
    exact hended (.inl rfl)
  rw [uipAppcall, if_pos hport] at hr
  have hnoget : t.flags.newdata = false → hs.state ≠ .noget := by
    rw [hnew]
    nofun
  obtain ⟨-, hflagged⟩ := httpdAppcall_spec (by rw [hflags]) (by rw [hflags]) hnoget rfl hr
  have hflags' : h'.flags = t.flags := hflagged.resolve_right hended
  obtain ⟨⟨page, hhs⟩, hsend⟩ := httpdAppcall_served (by rw [hflags]) (by rw [hflags]) hack hnew
    hwaits hr hended hfile
  rw [hack] at hc
  have hsmall := hfs page
  have hcount : (UInt16.ofNat (fs.data page).length).toNat = (fs.data page).length :=
    UInt16.toNat_ofNat_of_lt hsmall
  have hpos : 0 < UInt16.ofNat (fs.data page).length := by
    rw [UInt16.lt_iff_toNat_lt, hcount]
    exact data_pos fs page
  rw [hhs] at hsend ⊢
  generalize hback : handBack t a h' = s
  have hconnr : s.connr = t.connr := by rw [← hback]; rfl
  have hsflags : s.flags = t.flags := by rw [← hback]; exact hflags'
  have hslen : s.slen = UInt16.ofNat (fs.data page).length := by
    rw [← hback, handBack, hsend]
    rfl
  have hsappdata : s.sappdata = fun k ↦ (fs.data page).getD k 0 := by
    rw [← hback, handBack, hsend]
    rfl
  have hle := (hc.mss hok).1
  rw [← hconnr] at hmss hle hc hport
  obtain ⟨m, hne, hm, hmax, hsent, hpayload⟩ := appsend_next (t := s)
    (by rw [hsflags, hflags]) (by rw [hsflags, hflags])
    (by rw [hsflags, hack]; exact hc.len.trans hzero) (by rwa [hslen]) hmss hle
  rw [hslen] at hm
  have hm' : m.toNat ≤ (fs.data page).length := by
    rw [← hcount]
    exact UInt16.le_iff_toNat_le.mp hm
  refine ⟨page, ?_, ?_⟩
  · rw [hsent]
    refine ⟨hsmall, hc.mss hok, ?_, hc.state.trans hopen, hport, rfl, rfl, ?_, ?_, hne, hm, hmax⟩
    · change s.connr.initialmss ≠ 0
      rw [hc.initialmss]
      exact hinitial
    · rw [ackedSince_self]
      rfl
    · rw [ackedSince_self]
      exact hcount
  · rw [hpayload, hsappdata, hsent]
    exact bytes_take_getD hm'

theorem Opens.sending (h : Opens k srv e r.1) (hfs : ∀ page, (fs.data page).length < 65536)
    (hok : ConnOk (srv.stack.conns k) (srv.hs k)) (hmss : (srv.stack.conns k).initialmss ≠ 0)
    (hr : Transmit.step fs n srv e = some r) :
    ∃ page, Sending (fs.data page) (r.1.stack.conns k).sndNxt (r.1.stack.conns k) (r.1.hs k) ∧
      payload r.1.stack = (fs.data page).take (r.1.stack.conns k).len.toNat := by
  have hzero : (srv.stack.conns k).len = 0 := by
    by_contra hne
    obtain ⟨-, hfunc, hnoget, -⟩ := hok.sending h.before hne
    exact h.waits.elim hnoget hfunc
  obtain ⟨buf, len, u, rfl, hfor⟩ := h.segment
  obtain ⟨b, hb, hr⟩ := Option.bind_eq_some_iff.mp hr
  obtain ⟨hfin, hrst⟩ := h.plain hfor
  obtain ⟨b', hb', hreceived⟩ := frame_received hfor hfin hrst h.before hmss
  obtain rfl := Option.some.inj (hb.symm.trans hb')
  cases hreceived with
  | quiet =>
    obtain rfl := Option.some.inj hr
    have hfile := h.file
    rcases h.waits with hwaits | hwaits
    · cases hwaits.symm.trans hfile
    · cases hwaits.symm.trans hfile
  | @call t htouches hmss' hflags hevent hack hslen =>
    obtain ⟨p, a, h', happ, hstack, hconns, hhs⟩ := finish_call htouches.conn hr
    have hnoack : t.flags.ackdata = false := by
      rw [← Bool.not_eq_true]
      exact fun ha ↦ hack ha hzero
    have hnew : t.flags.newdata = true := by
      rw [← Bool.not_eq_false]
      intro hno
      rw [hevent hno] at hnoack
      cases hnoack
    have hfile := h.file
    have hbehind := h.behind
    rw [hhs] at hfile
    rw [hconns, hstack] at hbehind
    rw [hconns, hhs, hstack]
    exact sending_of_appcall hfs h.before hzero hmss hok.mss h.waits htouches.rel hmss' hflags
      hnoack hnew happ hfile hbehind

theorem inv_of_mem {es : List Event} {x : Server × Event} (hinv : Inv srv)
    (hx : x ∈ steps fs n srv es) : Inv x.1 := by
  induction es generalizing srv with
  | nil => cases hx
  | cons e es ih =>
    rw [steps, List.mem_cons] at hx
    rcases hx with rfl | hx
    · exact hinv
    cases hr : Transmit.step fs n srv e with
    | none =>
      rw [hr] at hx
      cases hx
    | some r =>
      rw [hr] at hx
      exact ih (step_inv hinv hr) hx

/-- In every run from `uip_init` on, when a request opens a file for a client that can take data, each
segment that is sent until the connection ends has the outstanding bytes behind the acknowledged
ones, and the server closes exactly when all are acknowledged; it resets exactly when it gives
up. -/
theorem response_streamed (hfs : ∀ page, (fs.data page).length < 65536) (hstart : Started srv)
    (es : List Event) {x : Server × Event} (hx : x ∈ steps fs n srv es)
    (hr : Transmit.step fs n x.1 x.2 = some r) (hopens : Opens k x.1 x.2 r.1)
    (hmss : (x.1.stack.conns k).initialmss ≠ 0) (es' : List Event)
    (hplain : ∀ y ∈ openSteps fs n k r.1 es', Plain y.1 k y.2) :
    ∃ page, (r.1.stack.conns k).len.toNat ≤ (fs.data page).length ∧
      payload r.1.stack = (fs.data page).take (r.1.stack.conns k).len.toNat ∧
      ∀ y ∈ openSteps fs n k r.1 es', ∀ r', Transmit.step fs n y.1 y.2 = some r' →
        Streams (fs.data page) (r.1.stack.conns k).sndNxt k y.1 y.2 r'.1 := by
  obtain ⟨page, hsending, hpayload⟩ := hopens.sending hfs (inv_of_mem hstart.inv hx k) hmss hr
  refine ⟨page, ?_, hpayload, hsending.run es' hplain⟩
  have hle := hsending.segment.1
  rwa [ackedSince_self, List.drop_zero] at hle

end

/-- The server behind events. -/
def ran (fs : Fs) (srv : Server) (es : List Event) : Option Server :=
  es.foldlM (fun srv e ↦ (Transmit.step fs 2 srv e).map Prod.fst) srv

theorem mem_steps_ran {fs : Fs} {srv srv' : Server} {es : List Event} (e : Event)
    (h : ran fs srv es = some srv') : (srv', e) ∈ steps fs 2 srv (es ++ [e]) := by
  induction es generalizing srv with
  | nil =>
    obtain rfl := Option.some.inj h
    exact List.mem_cons_self
  | cons d es ih =>
    rw [ran, List.foldlM_cons] at h
    obtain ⟨srv₁, hstep, hrun⟩ := Option.bind_eq_some_iff.mp h
    obtain ⟨r₁, hr₁, rfl⟩ := Option.map_eq_some_iff.mp hstep
    rw [List.cons_append, steps, hr₁, Option.elim_some]
    exact List.mem_cons_of_mem _ (ih hrun)

/-- The acknowledgement of the first byte. -/
def ack : Event :=
  frameOf (FrameIntegrity.headers 40 0x7b ++ [4, 0, 0, 80, 0, 0, 3, 0xee, 0, 0, 0, 2, 0x50, 0x10,
    0x20, 0, 6, 0x41, 0, 0, 0, 0, 0, 0, 0, 0])

/-- The client opens a connection and sends a request, which opens a page of 10 bytes. -/
def requested : Option (Server × Server) :=
  (ran (pages 1) fresh handshake).bind fun srv ↦
    (Transmit.step (pages 1) 2 srv get).map fun r ↦ (srv, r.1)

theorem pages_small (page : Page) : ((pages 1).data page).length < 65536 := by
  cases page
  all_goals decide

theorem requested_opens {srv r : Server} (h : requested = some (srv, r)) :
    (srv, get) ∈ steps (pages 1) 2 fresh (handshake ++ [get]) ∧
      (∃ o, Transmit.step (pages 1) 2 srv get = some (r, o)) ∧ Opens 0 srv get r ∧
      (srv.stack.conns 0).initialmss ≠ 0 := by
  have hfacts : requested.all (fun x ↦ decide (IsFor x.1 0 get ∧ Plain x.1 0 get ∧
      (x.1.stack.conns 0).state = .established ∧ (x.1.hs 0).state = .noget ∧
      (x.2.hs 0).state = .file ∧ (x.2.stack.conns 0).state = .established ∧
      (x.1.stack.conns 0).initialmss ≠ 0)) = true := by decide +kernel
  obtain ⟨hfor, hplain, hbefore, hwaits, hfile, hbehind, hmss⟩ :=
    of_decide_eq_true ((Option.all_eq_true _ _).mp hfacts (srv, r) h)
  obtain ⟨srv', hran, hr⟩ := Option.bind_eq_some_iff.mp h
  obtain ⟨⟨r', o⟩, hstep, heq⟩ := Option.map_eq_some_iff.mp hr
  obtain ⟨rfl, rfl⟩ := Prod.mk.inj heq
  exact ⟨mem_steps_ran get hran, ⟨o, hstep⟩,
    ⟨⟨_, _, _, rfl, hfor⟩, hplain, hbefore, .inl hwaits, hfile, hbehind⟩, hmss⟩

/-- A tick, the acknowledgement of the first byte, and a retransmission of the second. -/
theorem response_streamed_page : ∃ srv r page, requested = some (srv, r) ∧
    (r.stack.conns 0).len.toNat ≤ ((pages 1).data page).length ∧
    payload r.stack = ((pages 1).data page).take (r.stack.conns 0).len.toNat ∧
    ∀ y ∈ openSteps (pages 1) 2 0 r [tick, ack, tick, tick, tick, tick],
      ∀ r', Transmit.step (pages 1) 2 y.1 y.2 = some r' →
        Streams ((pages 1).data page) (r.stack.conns 0).sndNxt 0 y.1 y.2 r'.1 := by
  have hsome : requested.any (fun x ↦ (openSteps (pages 1) 2 0 x.2
      [tick, ack, tick, tick, tick, tick]).all fun y ↦ decide (Plain y.1 0 y.2)) = true := by
    decide +kernel
  obtain ⟨⟨srv, r⟩, h, hplain⟩ := (Option.any_eq_true _ _).mp hsome
  obtain ⟨hmem, ⟨o, hr⟩, hopens, hmss⟩ := requested_opens h
  obtain ⟨page, hresponse⟩ := response_streamed pages_small fresh_started _ hmem hr hopens
    hmss _ fun y hy ↦ of_decide_eq_true (List.all_eq_true.mp hplain y hy)
  exact ⟨srv, r, page, h, hresponse⟩

/-- The server resets a connection whose client acknowledges nothing. -/
theorem response_given_up :
    ¬ ∀ (fs : Fs) (n k : ℕ) (srv : Server), (∀ page, (fs.data page).length < 65536) → Started srv →
      ∀ es : List Event, ∀ x ∈ steps fs n srv es, ∀ r, Transmit.step fs n x.1 x.2 = some r →
      Opens k x.1 x.2 r.1 → (x.1.stack.conns k).initialmss ≠ 0 → ∀ es' : List Event,
      (∀ y ∈ openSteps fs n k r.1 es', Plain y.1 k y.2) → ∃ page,
        ∀ y ∈ openSteps fs n k r.1 es', ∀ r', Transmit.step fs n y.1 y.2 = some r' →
          ((r'.1.stack.conns k).state ≠ .established ↔
            ackedSince (r.1.stack.conns k).sndNxt (r'.1.stack.conns k) =
              (fs.data page).length) := by
  intro hall
  have hsome : requested.any (fun x ↦ (openSteps (pages 1) 2 0 x.2 (List.replicate 249 tick)).any
      fun y ↦ (Transmit.step (pages 1) 2 y.1 y.2).any fun r' ↦
        decide ((r'.1.stack.conns 0).state ≠ .established ∧
          ackedSince (x.2.stack.conns 0).sndNxt (r'.1.stack.conns 0) = 0)) = true := by
    decide +kernel
  obtain ⟨⟨srv, r⟩, h, hrun⟩ := (Option.any_eq_true _ _).mp hsome
  obtain ⟨hmem, ⟨o, hr⟩, hopens, hmss⟩ := requested_opens h
  obtain ⟨page, hpage⟩ := hall _ _ 0 _ pages_small fresh_started _ _ hmem _ hr hopens hmss
    (List.replicate 249 tick) (by
      intro y hy
      have htick : y.2 = tick :=
        List.eq_of_mem_replicate (mem_steps ((List.takeWhile_sublist _).subset hy))
      rw [htick]
      trivial)
  obtain ⟨y, hy, hstep⟩ := List.any_eq_true.mp hrun
  obtain ⟨r', hr', hdecide⟩ := (Option.any_eq_true _ _).mp hstep
  obtain ⟨hclosed, hacked⟩ := of_decide_eq_true hdecide
  have hlength := ((hpage y hy r' hr').mp hclosed).symm.trans hacked
  exact absurd hlength (data_pos (pages 1) page).ne'

end UBoot.Httpd.ResponseStream
