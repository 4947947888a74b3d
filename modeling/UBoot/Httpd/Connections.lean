import UBoot.Httpd.FrameIntegrity

namespace UBoot.Httpd.Connections

open Lib.Memory Appcall Uip Uip.Stack

/-- The timer makes the application send the outstanding data again. -/
def Retransmits (c : Conn) : Prop :=
  c.state = .established ∧ c.len ≠ 0 ∧ c.timer = 0 ∧ c.nrtx ≠ uipMaxrtx

def MssOk (c : Conn) : Prop := c.mss ≤ uipTcpMss ∧ c.initialmss ≤ uipTcpMss

/-- The receive path keeps what is outstanding. -/
structure Keeps (c c' : Conn) : Prop where
  mss : MssOk c → MssOk c'
  state : c'.state = c.state
  len : c'.len = c.len
  lport : c'.lport = c.lport

/-- What `uip_process` does to a connection without the application. -/
structure Quiet (c c' : Conn) : Prop where
  mss : MssOk c → MssOk c'
  sending : c'.state = .established → c.state = .established ∧ c'.len = c.len ∧ c'.lport = c.lport

/-- How the application is called for a connection; `T` says that it may be for a retransmission. -/
inductive Called (T : Prop) (c : Conn) : Stack → Resume → Prop
  | connected {s : Stack} (connected : s.flags.connected = true) (len : s.connr.len = 0)
      (slen : s.slen = 0) : Called T c s .appsend
  | polled {s : Stack} (connected : s.flags.connected = false) (poll : s.flags.poll = true)
      (len : s.connr.len = 0) (slen : s.slen = 0) : Called T c s .appsend
  | data {s : Stack} (keeps : Keeps c s.connr) (state : c.state = .established)
      (connected : s.flags.connected = false) (poll : s.flags.poll = false)
      (event : s.flags.newdata = false → s.flags.ackdata = true)
      (ack : s.flags.ackdata = true → c.len ≠ 0) (slen : s.slen = 0) : Called T c s .appsend
  | rexmit {s : Stack} (keeps : Keeps c s.connr) (retransmits : T ∧ Retransmits c)
      (flags : s.flags = { rexmit := true }) (slen : s.slen = 0) : Called T c s .apprexmit
  | finack {s : Stack} : Called T c s .finack
  | closing {s : Stack} {next : Resume} (state : s.connr.state ≠ .established)
      (next_eq : next = .drop ∨ next = .sendAck ∨ next = .sendRst) : Called T c s next

/-- Only the connection `uip_conn` has changed. -/
structure Touches (R : Conn → Conn → Prop) (s t : Stack) : Prop where
  conn : t.conn = s.conn
  others : ∀ k ≠ s.conn, t.conns k = s.conns k
  rel : R s.connr t.connr

/-- What `uip_process` does to the connections up to the call of the application. -/
inductive Processed (T : Prop) (s : Stack) : Before → Prop
  | done {t : Stack} (touches : Touches Quiet s t) : Processed T s (.done t)
  | call {t : Stack} {next : Resume} (touches : Touches (fun c c' ↦ MssOk c → MssOk c') s t)
      (called : Called T s.connr t next) : Processed T s (.call t next)

theorem Keeps.refl (c : Conn) : Keeps c c := ⟨id, rfl, rfl, rfl⟩

theorem Keeps.trans {c c' c'' : Conn} (h : Keeps c c') (h' : Keeps c' c'') : Keeps c c'' :=
  ⟨fun hmss ↦ h'.mss (h.mss hmss), h'.state.trans h.state, h'.len.trans h.len,
    h'.lport.trans h.lport⟩

theorem Keeps.quiet {c c' : Conn} (h : Keeps c c') : Quiet c c' :=
  ⟨h.mss, fun hest ↦ ⟨h.state.symm.trans hest, h.len, h.lport⟩⟩

section

variable {R : Conn → Conn → Prop} {T : Prop} {s t r : Stack}

theorem Touches.of_conns (hconns : t.conns = s.conns) (hconn : t.conn = s.conn) :
    Touches Keeps s t := by
  refine ⟨hconn, fun k _ ↦ congrFun hconns k, ?_⟩
  rw [connr, connr, hconns, hconn]
  exact .refl _

theorem Touches.comp {S T : Conn → Conn → Prop} (h : Touches R s t) (h' : Touches S t r)
    (hrel : T s.connr r.connr) : Touches T s r := by
  refine ⟨h'.conn.trans h.conn, ?_, hrel⟩
  intro k hk
  rw [h'.others k (by rwa [h.conn]), h.others k hk]

theorem Touches.trans (h : Touches Keeps s t) (h' : Touches Keeps t r) : Touches Keeps s r :=
  h.comp h' (h.rel.trans h'.rel)

theorem setConn_connr (s : Stack) (c : Conn) : (s.setConn c).connr = c := if_pos rfl

theorem Touches.setConn {S : Conn → Conn → Prop} (h : Touches S s t) {c : Conn}
    (hc : R s.connr c) : Touches R s (t.setConn c) := by
  refine ⟨h.conn, ?_, by rwa [setConn_connr]⟩
  intro k hk
  exact (if_neg (by rwa [h.conn])).trans (h.others k hk)

theorem Touches.leave (h : Touches Keeps s t) {c : Conn} (hmss : c.mss = t.connr.mss)
    (hinitial : c.initialmss = t.connr.initialmss) (hstate : c.state ≠ .established) :
    Touches Quiet s (t.setConn c) := by
  refine h.setConn ⟨?_, fun he ↦ absurd he hstate⟩
  intro hok
  obtain ⟨hmss', hinitial'⟩ := h.rel.mss hok
  rw [← hmss] at hmss'
  rw [← hinitial] at hinitial'
  exact ⟨hmss', hinitial'⟩

theorem Touches.behind (h : Touches R s t) (hconns : r.conns = t.conns) (hconn : r.conn = t.conn) :
    Touches R s r := by
  refine ⟨hconn.trans h.conn, ?_, ?_⟩
  · rw [hconns]
    exact h.others
  · have hconnr : r.connr = t.connr := by rw [connr, connr, hconns, hconn]
    rw [hconnr]
    exact h.rel

theorem Touches.refl (s : Stack) : Touches Keeps s s := .of_conns rfl rfl

theorem touches_addRcvNxt (n : UInt16) : Touches Keeps s (s.addRcvNxt n) :=
  (Touches.refl s).setConn ⟨id, rfl, rfl, rfl⟩

theorem touches_takeData : Touches Keeps s s.takeData := by
  unfold takeData
  split
  · exact (touches_addRcvNxt s.len).behind rfl rfl
  · exact .refl s

theorem touches_skipUrgent : Touches Keeps s s.skipUrgent := by
  unfold skipUrgent
  dsimp only
  split
  · exact (touches_addRcvNxt _).behind rfl rfl
  · exact .of_conns rfl rfl

theorem touches_updateMss : Touches Keeps s s.updateMss := by
  unfold updateMss
  apply (Touches.refl s).setConn
  refine ⟨?_, rfl, rfl, rfl⟩
  rintro ⟨hmss, hinitial⟩
  refine ⟨?_, hinitial⟩
  dsimp only
  split
  · exact hinitial
  next hwnd =>
    rw [not_or, UInt16.not_lt] at hwnd
    exact UInt16.le_trans hwnd.1 hinitial

theorem touches_checkAck : Touches Keeps s s.checkAck := by
  unfold checkAck
  dsimp only
  split
  · refine ((Touches.refl s).setConn ?_).behind rfl rfl
    split
    · exact ⟨id, rfl, rfl, rfl⟩
    · exact ⟨id, rfl, rfl, rfl⟩
  · exact .refl s

theorem Touches.sendNodata (h : Touches R s t) (flags : UInt8) :
    Touches R s (t.tcpSendNodata flags) := by
  obtain ⟨buf, ipid, heq⟩ := t.tcpSendNodata_eq flags
  rw [heq]
  exact h.behind rfl rfl

theorem Touches.sendSynack (h : Touches R s t) : Touches R s t.tcpSendSynack := by
  obtain ⟨buf, ipid, heq⟩ := t.tcpSendSynack_eq
  rw [heq]
  exact h.behind rfl rfl

theorem touches_reset : Touches Keeps s s.reset := by
  obtain ⟨buf, ipid, len, h⟩ := s.reset_eq
  rw [h]
  exact .of_conns rfl rfl

theorem touches_icmpInput : Touches Keeps s s.icmpInput := by
  obtain ⟨buf, len, h⟩ := s.icmpInput_eq
  rw [h]
  exact .of_conns rfl rfl

theorem Touches.quiet (h : Touches Keeps s t) : Touches Quiet s t := ⟨h.conn, h.others, h.rel.quiet⟩

theorem Touches.mss (h : Touches Quiet s t) : Touches (fun c c' ↦ MssOk c → MssOk c') s t :=
  ⟨h.conn, h.others, h.rel.mss⟩

theorem Touches.drop (h : Touches Quiet s t) : Processed T s (.done t.drop) := .done (h.behind rfl rfl)

theorem Touches.closed (h : Touches Keeps s t) (c : Conn) (hmss : c.mss = t.connr.mss)
    (hinitial : c.initialmss = t.connr.initialmss) (hstate : c.state ≠ .established)
    (flags : UipFlags) {next : Resume} (hnext : next = .drop ∨ next = .sendAck ∨ next = .sendRst) :
    Processed T s (.call { t.setConn c with flags := flags } next) := by
  have hleave := h.leave hmss hinitial hstate
  refine .call (hleave.mss.behind rfl rfl) (.closing ?_ hnext)
  change (t.setConn c).connr.state ≠ .established
  rwa [setConn_connr]

theorem Touches.established (h : Touches Keeps s t) (hstate : t.connr.state = .established)
    (hconnected : t.flags.connected = false) (hpoll : t.flags.poll = false)
    (hack : t.flags.ackdata = true → t.connr.len ≠ 0) : Processed T s t.established := by
  unfold Stack.established
  split
  · split
    · exact h.quiet.drop
    · exact .call ((h.trans (touches_addRcvNxt _)).quiet.mss.behind rfl rfl) .finack
  · have hurgent : t.skipUrgent.flags = t.flags := by
      unfold skipUrgent
      dsimp only
      split <;> rfl
    obtain ⟨conns, htake⟩ := FrameIntegrity.takeData_eq t.skipUrgent
    have hall : Touches Keeps s t.skipUrgent.takeData.updateMss :=
      ((h.trans touches_skipUrgent).trans touches_takeData).trans touches_updateMss
    have hflags : t.skipUrgent.takeData.updateMss.flags =
        { t.flags with newdata := t.flags.newdata || decide (0 < t.skipUrgent.len) } := by
      change t.skipUrgent.takeData.flags = _
      rw [htake, hurgent]
    dsimp only
    split
    next hevent =>
      refine .call (hall.quiet.mss.behind rfl rfl) (.data hall.rel ?_ ?_ ?_ ?_ ?_ rfl)
      · exact h.rel.state.symm.trans hstate
      · exact (congrArg UipFlags.connected hflags).trans hconnected
      · exact (congrArg UipFlags.poll hflags).trans hpoll
      · intro hnew
        rw [Bool.or_eq_true] at hevent
        exact hevent.resolve_left (Bool.eq_false_iff.mp hnew)
      · intro ha
        rw [← h.rel.len]
        exact hack ((congrArg UipFlags.ackdata hflags).symm.trans ha)
    · exact hall.quiet.drop

theorem Touches.ackData (h : Touches Keeps s t) :
    Touches Keeps s (if 0 < t.len then t.addRcvNxt t.len else t) := by
  split
  · exact h.trans (touches_addRcvNxt _)
  · exact h

theorem Touches.takeFin (h : Touches Quiet s t) (hstate : t.connr.state ≠ .established)
    (flags : UipFlags) :
    Processed T s (.call { t.addRcvNxt 1 with flags := flags } .sendAck) := by
  have hkeeps : Touches Keeps t (t.addRcvNxt 1) := touches_addRcvNxt 1
  have hstate' : (t.addRcvNxt 1).connr.state ≠ .established := by rwa [hkeeps.rel.state]
  have hfin : Touches Quiet s (t.addRcvNxt 1) :=
    h.comp hkeeps ⟨fun hmss ↦ hkeeps.rel.mss (h.rel.mss hmss), fun he ↦ absurd he hstate'⟩
  exact .call (hfin.mss.behind rfl rfl) (.closing hstate' (.inr (.inl rfl)))

theorem Touches.finWait1 (h : Touches Keeps s t) (hstate : t.connr.state = .finWait1) :
    Processed T s t.finWait1 := by
  unfold Stack.finWait1
  have hdata := h.ackData
  have hstate' : (if 0 < t.len then t.addRcvNxt t.len else t).connr.state = .finWait1 :=
    hdata.rel.state.trans (h.rel.state.symm.trans hstate)
  generalize (if 0 < t.len then t.addRcvNxt t.len else t) = t at hdata hstate'
  dsimp only
  split
  · split
    · have hleave : Touches Quiet s
          (t.setConn { t.connr with state := .timeWait, timer := 0, len := 0 }) :=
        hdata.leave rfl rfl nofun
      exact hleave.takeFin (by rw [setConn_connr]; nofun) _
    · have hleave : Touches Quiet s (t.setConn { t.connr with state := .closing }) :=
        hdata.leave rfl rfl nofun
      exact hleave.takeFin (by rw [setConn_connr]; nofun) _
  split
  · have hleave : Touches Quiet s (t.setConn { t.connr with state := .finWait2, len := 0 }) :=
      hdata.leave rfl rfl nofun
    exact hleave.drop
  split
  · exact .done (hdata.quiet.sendNodata tcpAck)
  · exact hdata.quiet.drop

theorem Touches.finWait2 (h : Touches Keeps s t) : Processed T s t.finWait2 := by
  unfold Stack.finWait2
  have hdata := h.ackData
  generalize (if 0 < t.len then t.addRcvNxt t.len else t) = t at hdata
  dsimp only
  split
  · have hleave : Touches Quiet s (t.setConn { t.connr with state := .timeWait, timer := 0 }) :=
      hdata.leave rfl rfl nofun
    exact hleave.takeFin (by rw [setConn_connr]; nofun) _
  split
  · exact .done (hdata.quiet.sendNodata tcpAck)
  · exact hdata.quiet.drop

theorem Touches.switchState (h : Touches Keeps s t) {ack : Bool}
    (hflags : t.flags = { ackdata := ack }) (hack : ack = true → t.connr.len ≠ 0) :
    Processed T s t.switchState := by
  have hackdata : t.flags.ackdata = ack := by rw [hflags]
  unfold Stack.switchState
  dsimp only
  split
  next hstate =>
    split
    · have hconn : Touches (fun c c' ↦ MssOk c → MssOk c') s
          (t.setConn { t.connr with state := .established, len := 0 }) := h.setConn h.rel.mss
      generalize hx : ({ t.setConn { t.connr with state := .established, len := 0 } with
        flags := { connected := true } } : Stack) = x
      have hx' : Touches (fun c c' ↦ MssOk c → MssOk c') s x := by
        rw [← hx]
        exact hconn.behind rfl rfl
      have hlen : x.connr.len = 0 := by
        rw [← hx]
        exact congrArg Conn.len (setConn_connr t _)
      have htake : Touches Keeps x x.takeData := touches_takeData
      refine .call ((hx'.comp htake fun hmss ↦ htake.rel.mss (hx'.rel hmss)).behind rfl rfl)
        (.connected ?_ (htake.rel.len.trans hlen) rfl)
      obtain ⟨conns, htake'⟩ := FrameIntegrity.takeData_eq x
      rw [htake', ← hx]
    · exact h.quiet.drop
  next hstate =>
    apply h.established hstate
    · rw [hflags]
    · rw [hflags]
    · rwa [hackdata]
  next hstate =>
    split
    · exact h.closed { t.connr with state := .closed } rfl rfl nofun _ (.inl rfl)
    · exact h.quiet.drop
  next hstate => exact h.finWait1 hstate
  next hstate => exact h.finWait2
  next hstate => exact .done (h.quiet.sendNodata tcpAck)
  next hstate =>
    split
    · have hleave : Touches Quiet s (t.setConn { t.connr with state := .timeWait, timer := 0 }) :=
        h.leave rfl rfl nofun
      exact hleave.drop
    · exact h.quiet.drop
  next hstate => exact h.quiet.drop

theorem found_processed (s : Stack) : Processed T s s.found := by
  unfold Stack.found
  have hstart : Touches Keeps s { s with flags := {} } := .of_conns rfl rfl
  dsimp only
  split
  · exact hstart.closed { s.connr with state := .closed } rfl rfl nofun _ (.inl rfl)
  have hsub : Touches Keeps s (({ s with flags := {} } : Stack).subLen
      (tcpHlen { s with flags := {} } + 20)) := .of_conns rfl rfl
  generalize hx : ({ s with flags := {} } : Stack).subLen (tcpHlen { s with flags := {} } + 20) = x
    at hsub
  split
  · exact .done (hsub.quiet.sendNodata tcpAck)
  · have hflags : x.flags = {} := by rw [← hx]; rfl
    obtain ⟨-, -, -, -, hlen, hack⟩ := FrameIntegrity.checkAck_spec (s := x) rfl hflags
    refine (hsub.trans touches_checkAck).switchState hack ?_
    intro ha
    rw [hlen]
    simp only [FrameIntegrity.acks, Bool.and_eq_true, decide_eq_true_eq] at ha
    exact ha.1.2

theorem readMss_mss {c c' : Conn} (h : s.readMss c = some c') :
    c'.state = c.state ∧ (MssOk c → MssOk c') := by
  unfold readMss at h
  split at h
  · obtain ⟨option, -, rfl⟩ := Option.map_eq_some_iff.mp h
    cases option with
    | none => exact ⟨rfl, id⟩
    | some n =>
      refine ⟨rfl, fun _ ↦ ?_⟩
      have hle : (if uipTcpMss.toNat < n then uipTcpMss else UInt16.ofNat n) ≤ uipTcpMss := by
        split
        · exact UInt16.le_refl _
        next hn =>
          rw [UInt16.le_iff_toNat_le]
          have hsmall : uipTcpMss.toNat < 65536 := uipTcpMss.toNat_lt
          rw [UInt16.toNat_ofNat_of_lt' (Nat.lt_of_le_of_lt (Nat.le_of_not_lt hn) hsmall)]
          exact Nat.le_of_not_lt hn
      exact ⟨hle, hle⟩
  · obtain rfl := Option.some.inj h
    exact ⟨rfl, id⟩

theorem foundListen_processed (h : s.foundListen = some t) :
    ∃ k, Touches Quiet { s with conn := k } t := by
  unfold Stack.foundListen at h
  split at h
  · obtain rfl := Option.some.inj h
    exact ⟨s.conn, (Touches.refl s).quiet.behind rfl rfl⟩
  next k _ =>
    obtain ⟨c, hc, rfl⟩ := Option.map_eq_some_iff.mp h
    obtain ⟨hstate, hmss⟩ := readMss_mss hc
    have hnot : c.state ≠ .established := by rw [hstate]; nofun
    refine ⟨k, Touches.sendSynack ((Touches.refl _).setConn ⟨hmss, fun he ↦ absurd he hnot⟩)⟩

theorem tcpInput_processed {b : Before} (h : s.tcpInput = some b) :
    ∃ k, Processed T { s with conn := k } b := by
  unfold Stack.tcpInput at h
  split at h
  · obtain rfl := Option.some.inj h
    exact ⟨s.conn, (Touches.refl s).quiet.drop⟩
  split at h
  next k _ =>
    obtain rfl := Option.some.inj h
    exact ⟨k, found_processed _⟩
  split_ifs at h
  · obtain rfl := Option.some.inj h
    exact ⟨s.conn, .done touches_reset.quiet⟩
  · obtain ⟨t, ht, rfl⟩ := Option.map_eq_some_iff.mp h
    obtain ⟨k, hk⟩ := foundListen_processed ht
    exact ⟨k, .done hk⟩
  · obtain rfl := Option.some.inj h
    exact ⟨s.conn, .done touches_reset.quiet⟩

/-- The connections do not depend on the fields that are set in front. -/
theorem Processed.congr {b : Before} (h : Processed T t b) (hconns : t.conns = s.conns)
    (hconn : t.conn = s.conn) : Processed T s b := by
  have hconnr : t.connr = s.connr := by rw [connr, connr, hconns, hconn]
  cases h with
  | done touches =>
    obtain ⟨hc, ho, hrel⟩ := touches
    rw [hconns, hconn] at ho
    rw [hconnr] at hrel
    exact .done ⟨hc.trans hconn, ho, hrel⟩
  | call touches called =>
    obtain ⟨hc, ho, hrel⟩ := touches
    rw [hconns, hconn] at ho
    rw [hconnr] at hrel called
    exact .call ⟨hc.trans hconn, ho, hrel⟩ called

theorem input_processed {b : Before} (h : s.input = some b) :
    ∃ k, Processed T { s with conn := k } b := by
  rw [FrameIntegrity.input_eq] at h
  have hdone : ∀ t : Stack, t.conns = s.conns → t.conn = s.conn → Processed T s (.done t) :=
    fun t hconns hconn ↦ .done (Touches.of_conns hconns hconn).quiet
  split_ifs at h
  iterate 4
    · obtain rfl := Option.some.inj h
      exact ⟨s.conn, hdone _ rfl rfl⟩
  · obtain ⟨k, hk⟩ := tcpInput_processed h
    exact ⟨k, hk.congr rfl rfl⟩
  · obtain rfl := Option.some.inj h
    exact ⟨s.conn, hdone _ rfl rfl⟩
  · obtain rfl := Option.some.inj h
    have hicmp : Touches Keeps (FrameIntegrity.start s) (FrameIntegrity.start s).icmpInput :=
      touches_icmpInput
    exact ⟨s.conn, .congr (.done hicmp.quiet) rfl rfl⟩

theorem timer_processed (s : Stack) : Processed True s s.timer := by
  unfold Stack.timer
  have hstart : Touches Keeps s
      { s with appdata := uipLlhLen + 40, iss := uipAdd32 s.iss 1, len := 0 } := .of_conns rfl rfl
  dsimp only
  split
  next hwait =>
    have hnot : s.connr.state ≠ .established := by
      rcases hwait with hwait | hwait
      all_goals
        rw [show s.connr.state = _ from hwait]
        nofun
    refine Touches.drop (hstart.leave ?_ ?_ ?_)
    · split <;> rfl
    · split <;> rfl
    · split
      · nofun
      · exact hnot
  split
  · exact hstart.quiet.drop
  split
  next hlen =>
    split
    next htimer =>
      split
      · exact hstart.closed { s.connr with timer := s.connr.timer - 1, state := .closed } rfl rfl nofun
          _ (.inr (.inr rfl))
      next hmax =>
        rw [not_or] at hmax
        have hset : Touches Keeps s (Stack.setConn
            { s with appdata := uipLlhLen + 40, iss := uipAdd32 s.iss 1, len := 0 }
            { s.connr with
              timer := uipRto <<< (if 4 < s.connr.nrtx then 4 else s.connr.nrtx)
              nrtx := s.connr.nrtx + 1 }) := hstart.setConn ⟨id, rfl, rfl, rfl⟩
        split
        · exact .done hset.quiet.sendSynack
        next hest =>
          refine .call (hset.quiet.mss.behind rfl rfl)
            (.rexmit (hset.behind rfl rfl).rel ⟨trivial, hest, hlen, htimer, hmax.1⟩ rfl rfl)
        · exact .done (hset.quiet.sendNodata _)
        · exact .done (hset.quiet.sendNodata _)
        · exact .done (hset.quiet.sendNodata _)
        · exact hset.quiet.drop
    · have hset : Touches Keeps s (Stack.setConn
          { s with appdata := uipLlhLen + 40, iss := uipAdd32 s.iss 1, len := 0 }
          { s.connr with timer := s.connr.timer - 1 }) := hstart.setConn ⟨id, rfl, rfl, rfl⟩
      exact hset.quiet.drop
  next hlen =>
    split
    · refine .call (hstart.quiet.mss.behind rfl rfl) (.polled rfl rfl (not_not.mp hlen) rfl)
    · exact hstart.quiet.drop

theorem timer_of_retransmits (h : Retransmits s.connr) : ∃ t, s.timer = .call t .apprexmit := by
  obtain ⟨hest, hlen, htimer, hmax⟩ := h
  unfold Stack.timer
  dsimp only
  split
  next hwait =>
    rcases hwait with hwait | hwait
    · cases hwait.symm.trans hest
    · cases hwait.symm.trans hest
  split
  next hclosed => cases hclosed.symm.trans hest
  split
  next =>
    split
    next =>
      split
      next hend =>
        rcases hend with hend | ⟨hsyn, -⟩
        · exact absurd hend hmax
        · cases hsyn.symm.trans hest
      next =>
        split
        next hstate => cases hstate.symm.trans hest
        next => exact ⟨_, rfl⟩
        next hstate => cases hstate.symm.trans hest
        next hstate => cases hstate.symm.trans hest
        next hstate => cases hstate.symm.trans hest
        next hno _ _ _ => exact absurd hest hno
    next hnot => exact absurd htimer hnot
  next hnot => exact absurd hlen hnot

end

end UBoot.Httpd.Connections
