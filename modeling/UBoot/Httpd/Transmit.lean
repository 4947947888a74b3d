import UBoot.Httpd.Connections
import UBoot.Httpd.ReceivePath

namespace UBoot.Httpd.Transmit

open Lib.Memory Lib.CString Cgi Appcall Uip Uip.Stack Connections ReceivePath

/-- The HTTP server. `hs k` is the `appstate` of the connection `k`. -/
structure Server where
  stack : Stack
  hs : ℕ → Hs
  board : Board
  vars : Vars

/-- A frame from the driver, or a tick for one connection, with the uninitialised locals of
`upgrade_cgi`. -/
inductive Event
  | frame (buf : Mem) (len : UInt16) (u : ℕ → Uninit)
  | timer (k : ℕ) (u : ℕ → Uninit)

/-- `uip_process` at the label `apprexmit`, if it gets there. -/
def atApprexmit (s : Stack) : Resume → Option Stack
  | .appsend =>
    let c := s.connr
    if s.flags.abort || s.flags.close then none
    else if 0 < s.slen then
      let c := if s.flags.ackdata then { c with len := 0 } else c
      let slen := if c.len = 0 then min s.slen c.mss else c.len
      some { s.setConn { c with len := slen, nrtx := 0 } with slen := slen }
    else some (s.setConn { c with len := 0, nrtx := 0 })
  | .apprexmit => some s
  | _ => none

section

variable (fs : Fs) (n : ℕ)

/-- `httpd_appcall` with its `switch` on the port; it goes back to `send_error` at most `n` times. -/
def uipAppcall (c : Conn) (u : ℕ → Uninit) (p : Packet) (h : App) : Option (List UInt8 × App) :=
  if c.lport = 80 then httpdAppcall fs (n + 1) c.len u p h else some (p.appdata, uipAbort h)

/-- The stack behind the call. -/
def handBack (s : Stack) (appdata : List UInt8) (h : App) : Stack :=
  { s with
    buf := store s.buf s.appdata appdata
    flags := h.flags
    slen := h.send.elim s.slen Prod.snd
    sappdata := h.send.elim s.sappdata fun d k ↦ d.1.getD k 0 }

/-- `uip_process` from the call of the application on. -/
def finish (srv : Server) (u : ℕ → Uninit) : Before → Option (Server × Option Stack)
  | .done s => some ({ srv with stack := s }, none)
  | .call s next =>
    let p := ⟨bytes s.buf s.appdata (uipBufLen - s.appdata), s.len.toNat⟩
    let app := ⟨srv.hs s.conn, srv.board, srv.vars, s.flags, none, []⟩
    (uipAppcall fs n s.connr u p app).map fun (appdata, h) ↦
      let s' := handBack s appdata h
      (⟨s'.resume next, fun k ↦ if k = s.conn then h.hs else srv.hs k, h.board, h.vars⟩,
        atApprexmit s' next)

/-- One event, with the stack at the loop that copies, if it is reached. -/
def step (srv : Server) : Event → Option (Server × Option Stack)
  | .frame buf len u => (input { srv.stack with buf := buf, len := len }).bind (finish fs n srv u)
  | .timer k u => finish fs n srv u (timer { srv.stack with conn := k })

/-- The events of a run, each with the state it meets. -/
def steps (srv : Server) : List Event → List (Server × Event)
  | [] => []
  | e :: es => (srv, e) :: (step fs n srv e).elim [] fun r ↦ steps r.1 es

end

/-- The loop copies no more than what is outstanding, stays in `uip_buf`, and the data of the segment
that is sent are what it has copied. -/
structure Exact (s : Stack) : Prop where
  count : s.slen ≤ s.connr.len
  inside : 54 + s.slen.toNat ≤ uipBufLen
  payload : bytes s.apprexmit.buf 54 (s.apprexmit.len.toNat - 40) = bytes s.sappdata 0 s.slen.toNat

/-- What is retransmitted is the last segment: there is no more of the file left. -/
def LastSegment (srv : Server) : Event → Prop
  | .frame .. => True
  | .timer k _ => Retransmits (srv.stack.conns k) → (srv.hs k).count ≤ (srv.stack.conns k).len

/-- A connection and its application: what is outstanding is the start of what is left of the
file. -/
structure ConnOk (c : Conn) (hs : Hs) : Prop where
  mss : MssOk c
  sending : c.state = .established → c.len ≠ 0 → c.lport = 80 ∧ hs.state ≠ .func ∧
    hs.state ≠ .noget ∧ c.len ≤ hs.count ∧ c.len ≤ uipTcpMss

def Inv (srv : Server) : Prop := ∀ k, ConnOk (srv.stack.conns k) (srv.hs k)

/-- `uip_init`. The connections are in static storage, or left from an earlier run. -/
def Started (srv : Server) : Prop :=
  ∀ k, (srv.stack.conns k).state = .closed ∧ MssOk (srv.stack.conns k)

theorem Started.inv {srv : Server} (h : Started srv) : Inv srv := by
  intro k
  obtain ⟨hstate, hmss⟩ := h k
  refine ⟨hmss, ?_⟩
  intro hest
  rw [hstate] at hest
  cases hest

theorem connOk_of_quiet {c c' : Conn} {hs : Hs} (h : Quiet c c') (hc : ConnOk c hs) : ConnOk c' hs := by
  refine ⟨h.mss hc.mss, ?_⟩
  intro hest hlen
  obtain ⟨hest', hlen', hport⟩ := h.sending hest
  rw [hlen'] at hlen ⊢
  rw [hport]
  exact hc.sending hest' hlen

/-- The flags are those of the call, unless the application has aborted or closed. -/
def Flagged (h h' : App) : Prop :=
  h'.flags = h.flags ∨ h'.flags = { abort := true } ∨ h'.flags = { close := true }

/-- The application has got a request, or refuses it. -/
def Good (h : App) : Prop := h.hs.state ≠ .noget ∨ h.flags = { abort := true }

section

variable {fs : Fs} {u : Uninit} {p : Packet} {h h' h'' : App} {a : List UInt8}

theorem Flagged.refl (h : App) : Flagged h h := .inl rfl

theorem Flagged.trans (h₁ : Flagged h h') (h₂ : Flagged h' h'') : Flagged h h'' := by
  rcases h₂ with h₂ | h₂
  · rwa [Flagged, h₂]
  · exact .inr h₂

theorem nextScriptstate_spec {n : ℕ} (hr : nextScriptstate fs u p n h = some (a, h')) :
    h'.send = h.send ∧ Good h' ∧ Flagged h h' := by
  induction n generalizing h with
  | zero => cases hr
  | succ n ih =>
    unfold nextScriptstate at hr
    dsimp only at hr
    split at hr
    · obtain ⟨-, rfl⟩ := Prod.mk.inj (Option.some.inj hr)
      exact ⟨rfl, .inl nofun, .inl rfl⟩
    · obtain ⟨⟨ret, appdata, vars⟩, -, hr⟩ := Option.map_eq_some_iff.mp hr
      obtain ⟨-, rfl⟩ := Prod.mk.inj hr
      exact ⟨rfl, .inl nofun, .inl rfl⟩
    · split at hr
      · obtain ⟨-, rfl⟩ := Prod.mk.inj (Option.some.inj hr)
        exact ⟨rfl, .inr rfl, .inr (.inl rfl)⟩
      · obtain ⟨-, rfl⟩ := Prod.mk.inj (Option.some.inj hr)
        exact ⟨rfl, .inl nofun, .inl rfl⟩
    · obtain ⟨hsend, hgood, hflags⟩ := ih hr
      exact ⟨hsend, hgood, hflags⟩
    · obtain ⟨-, rfl⟩ := Prod.mk.inj (Option.some.inj hr)
      exact ⟨rfl, .inl nofun, .inr (.inr rfl)⟩
    · obtain ⟨-, rfl⟩ := Prod.mk.inj (Option.some.inj hr)
      exact ⟨rfl, .inr rfl, .inr (.inl rfl)⟩

theorem serve_spec {offset : ℕ} {page : Page} (hr : serve fs u p offset page h = some (a, h')) :
    h'.send = h.send ∧ Good h' ∧ Flagged h h' := by
  unfold serve at hr
  split at hr
  · obtain ⟨hsend, hgood, hflags⟩ := nextScriptstate_spec hr
    exact ⟨hsend, hgood, hflags⟩
  · obtain ⟨-, rfl⟩ := Prod.mk.inj (Option.some.inj hr)
    exact ⟨rfl, .inl nofun, .inl rfl⟩

theorem acked_spec {len : UInt16} (hgood : Good h) (hr : acked fs u p len h = some (a, h')) :
    h'.send = h.send ∧ Good h' ∧ Flagged h h' := by
  unfold acked at hr
  split at hr
  next hack =>
    have hstate : h.hs.state ≠ .noget := by
      rcases hgood with hgood | hgood
      · exact hgood
      · rw [hgood] at hack
        cases hack
    dsimp only at hr
    generalize hhs : (if len ≤ h.hs.count then
      { h.hs with count := h.hs.count - len, dataptr := h.hs.dataptr.drop len.toNat }
      else { h.hs with count := 0 } : Hs) = hs at hr
    have hstate' : hs.state ≠ .noget := by
      rw [← hhs]
      split <;> exact hstate
    split at hr
    · split at hr
      · obtain ⟨hsend, hgood', hflags⟩ := nextScriptstate_spec hr
        exact ⟨hsend, hgood', hflags⟩
      · obtain ⟨-, rfl⟩ := Prod.mk.inj (Option.some.inj hr)
        exact ⟨rfl, .inl hstate', .inr (.inr rfl)⟩
    · obtain ⟨-, rfl⟩ := Prod.mk.inj (Option.some.inj hr)
      exact ⟨rfl, .inl hstate', .inl rfl⟩
  · obtain ⟨-, rfl⟩ := Prod.mk.inj (Option.some.inj hr)
    exact ⟨rfl, hgood, .inl rfl⟩

/-- What the application gives to `uip_send`: all that is left of the file. -/
def Sent (h : App) : Prop :=
  h.send = none ∨ (h.hs.state ≠ .func ∧ h.send = some (h.hs.dataptr, h.hs.count))

theorem callCgi_spec {offset n : ℕ} {len : UInt16} {u : ℕ → Uninit} (hgood : Good h)
    (hsend : h.send = none) (hr : callCgi fs offset len u n p h = some (a, h')) :
    Sent h' ∧ Good h' ∧ Flagged h h' := by
  induction n generalizing p h with
  | zero => cases hr
  | succ n ih =>
    unfold callCgi at hr
    split at hr
    next hfunc =>
      obtain ⟨⟨ret, appdata, vars⟩, -, hr⟩ := Option.bind_eq_some_iff.mp hr
      dsimp only at hr
      have hgood' : ∀ h₁ : App, h₁.hs = h.hs → Good h₁ := by
        intro h₁ hhs
        refine .inl ?_
        rw [hhs, hfunc]
        nofun
      split at hr
      · obtain ⟨⟨appdata', h₁⟩, hserve, hr⟩ := Option.bind_eq_some_iff.mp hr
        obtain ⟨hsend', hgood₁, hflags⟩ := serve_spec hserve
        obtain ⟨hsent, hgood₂, hflags'⟩ := ih hgood₁ (hsend'.trans hsend) hr
        exact ⟨hsent, hgood₂, Flagged.trans hflags hflags'⟩
      split at hr
      · obtain ⟨⟨appdata', h₁⟩, hserve, hr⟩ := Option.bind_eq_some_iff.mp hr
        obtain ⟨hsend', hgood₁, hflags⟩ := serve_spec hserve
        obtain ⟨hsent, hgood₂, hflags'⟩ := ih hgood₁ (hsend'.trans hsend) hr
        exact ⟨hsent, hgood₂, Flagged.trans hflags hflags'⟩
      · obtain ⟨-, rfl⟩ := Prod.mk.inj (Option.some.inj hr)
        exact ⟨.inl hsend, hgood' _ rfl, .inl rfl⟩
    next hfunc =>
      obtain ⟨⟨appdata, h₁⟩, hack, hr⟩ := Option.map_eq_some_iff.mp hr
      obtain ⟨hsend', hgood₁, hflags⟩ := acked_spec hgood hack
      dsimp only at hr
      split at hr
      next hfile =>
        obtain ⟨-, rfl⟩ := Prod.mk.inj hr
        exact ⟨.inr ⟨hfile.1, rfl⟩, hgood₁, hflags⟩
      · obtain ⟨-, rfl⟩ := Prod.mk.inj hr
        exact ⟨.inl (hsend'.trans hsend), hgood₁, hflags⟩

/-- The application is told of a connection, or polled: it sends nothing. -/
theorem httpdAppcall_quiet {n : ℕ} {len : UInt16} {u : ℕ → Uninit}
    (hflags : h.flags.connected = true ∨ h.flags.poll = true) (hsend : h.send = none)
    (hr : httpdAppcall fs n len u p h = some (a, h')) : h'.send = none := by
  unfold httpdAppcall at hr
  split at hr
  · obtain ⟨-, rfl⟩ := Prod.mk.inj (Option.some.inj hr)
    exact hsend
  next hconnected =>
    rw [if_pos (hflags.resolve_left hconnected)] at hr
    obtain ⟨-, rfl⟩ := Prod.mk.inj (Option.some.inj hr)
    split <;> exact hsend

theorem httpdAppcall_spec {n : ℕ} {len : UInt16} {u : ℕ → Uninit} (hconnected : h.flags.connected = false)
    (hpoll : h.flags.poll = false) (hstate : h.flags.newdata = false → h.hs.state ≠ .noget)
    (hsend : h.send = none) (hr : httpdAppcall fs n len u p h = some (a, h')) :
    (h'.send = none ∨ (Sent h' ∧ Good h')) ∧ Flagged h h' := by
  unfold httpdAppcall at hr
  rw [if_neg (by rw [hconnected]; decide), if_neg (by rw [hpoll]; decide)] at hr
  split at hr
  · dsimp only at hr
    split at hr
    · obtain ⟨-, rfl⟩ := Prod.mk.inj (Option.some.inj hr)
      exact ⟨.inl hsend, .inr (.inl rfl)⟩
    · generalize hopen : openPage _ _ h = opened at hr
      have hopened : opened.2.send = h.send ∧ opened.2.flags = h.flags := by
        rw [← hopen, openPage]
        dsimp only
        split_ifs
        all_goals exact ⟨rfl, rfl⟩
      obtain ⟨page, h₁⟩ := opened
      obtain ⟨⟨appdata, h₂⟩, hserve, hr⟩ := Option.bind_eq_some_iff.mp hr
      obtain ⟨hsend₂, hgood₂, hflags₂⟩ := serve_spec hserve
      obtain ⟨hsent, hgood, hflags⟩ := callCgi_spec hgood₂ (hsend₂.trans (hopened.1.trans hsend)) hr
      exact ⟨.inr ⟨hsent, hgood⟩, Flagged.trans (.inl (hopened.2 ▸ rfl)) (hflags₂.trans hflags)⟩
  next hnew =>
    have hgood : Good h := by
      refine .inl ?_
      intro hnoget
      cases hdata : h.flags.newdata with
      | false => exact hstate hdata hnoget
      | true => exact hnew ⟨hdata, hnoget⟩
    obtain ⟨hsent, hgood', hflags⟩ := callCgi_spec hgood hsend hr
    exact ⟨.inr ⟨hsent, hgood'⟩, hflags⟩

/-- Without an acknowledgement a file that is being sent is sent again from where it is. -/
theorem httpdAppcall_again {n : ℕ} {len : UInt16} {u : ℕ → Uninit} (hconnected : h.flags.connected = false)
    (hpoll : h.flags.poll = false) (hack : h.flags.ackdata = false) (hnoget : h.hs.state ≠ .noget)
    (hfunc : h.hs.state ≠ .func) :
    httpdAppcall fs (n + 1) len u p h =
      some (p.appdata, { h with send := some (h.hs.dataptr, h.hs.count) }) := by
  unfold httpdAppcall
  rw [if_neg (by rw [hconnected]; decide), if_neg (by rw [hpoll]; decide),
    if_neg (fun hnew ↦ hnoget hnew.2), callCgi, if_neg hfunc, acked, if_neg (by rw [hack]; decide)]
  simp only [Option.map_some, if_pos (show h.hs.state ≠ .func ∧ h.flags.poll = false from ⟨hfunc, hpoll⟩)]

end

section

variable {s t : Stack}

theorem resume_eq_apprexmit {next : Resume} (h : atApprexmit s next = some t) :
    s.resume next = t.apprexmit := by
  cases next with
  | appsend =>
    unfold atApprexmit at h
    dsimp only at h
    split at h
    · cases h
    next hflags =>
      rw [Bool.or_eq_true, not_or] at hflags
      simp only [resume, appsend, if_neg hflags.1, if_neg hflags.2]
      split at h
      next hslen =>
        rw [if_pos hslen, ← Option.some.inj h]
      next hslen =>
        rw [if_neg hslen, ← Option.some.inj h]
  | apprexmit =>
    rw [← Option.some.inj h]
    rfl
  | drop => cases h
  | finack => cases h
  | sendAck => cases h
  | sendRst => cases h

theorem putBytes_data (s : Stack) {off k : ℕ} {bs : List UInt8} (h : off + bs.length ≤ 54)
    (hk : 54 ≤ k) : (s.putBytes off bs).buf k = s.buf k := store_of_le s.buf (Nat.le_trans h hk)

theorem put16_data (s : Stack) {off k : ℕ} (n : ℕ) (h : off + 2 ≤ 54) (hk : 54 ≤ k) :
    (s.put16 off n).buf k = s.buf k := putBytes_data s h hk

theorem tcpSendNoopts_data (s : Stack) {k : ℕ} (hk : 54 ≤ k) : s.tcpSendNoopts.buf k = s.buf k := by
  have hnoconn : ∀ s : Stack, s.tcpSendNoconn.buf k = s.buf k := by
    intro s
    unfold tcpSendNoconn
    dsimp only
    rw [put16_data _ _ (by decide) hk, put16_data _ _ (by decide) hk,
      put16_data _ _ (by decide) hk]
    dsimp only
    rw [putBytes_data _ (by decide) hk, putBytes_data _ (by decide) hk,
      putBytes_data _ (by decide) hk, put16_data _ _ (by decide) hk, put16_data _ _ (by decide) hk,
      put16_data _ _ (by decide) hk]
  unfold tcpSendNoopts tcpSend
  dsimp only
  rw [hnoconn, put16_data _ _ (by decide) hk, putBytes_data _ (show 30 + 4 ≤ 54 by decide) hk,
    putBytes_data _ (show 26 + 4 ≤ 54 by decide) hk, put16_data _ _ (by decide) hk,
    put16_data _ _ (by decide) hk, putBytes_data _ (by decide) hk,
    putBytes_data _ (show 38 + 4 ≤ 54 by decide) hk, putBytes_data _ (show 42 + 4 ≤ 54 by decide) hk,
    putBytes_data _ (by decide) hk]

theorem tcpSendNoopts_len (s : Stack) : s.tcpSendNoopts.len = s.len := by
  obtain ⟨buf, ipid, h⟩ := s.tcpSendNoopts_eq
  rw [h]

theorem tcpSendNodata_connr (s : Stack) (flags : UInt8) : (s.tcpSendNodata flags).connr = s.connr := by
  obtain ⟨buf, ipid, h⟩ := s.tcpSendNodata_eq flags
  rw [h]
  rfl

theorem apprexmit_conns (s : Stack) : s.apprexmit.conns = s.conns ∧ s.apprexmit.conn = s.conn := by
  have hsend : ∀ s : Stack, s.tcpSendNoopts.conns = s.conns ∧ s.tcpSendNoopts.conn = s.conn := by
    intro s
    obtain ⟨buf, ipid, h⟩ := s.tcpSendNoopts_eq
    rw [h]
    exact ⟨rfl, rfl⟩
  unfold apprexmit
  have hcopy : ∀ x : Stack, x = (if 0 < s.slen then
      s.putBytes 54 (bytes s.sappdata 0 s.slen.toNat) else s) →
      x.conns = s.conns ∧ x.conn = s.conn := by
    rintro x rfl
    split <;> exact ⟨rfl, rfl⟩
  generalize hx : (if 0 < s.slen then s.putBytes 54 (bytes s.sappdata 0 s.slen.toNat) else s) = x
  obtain ⟨hconns, hconn⟩ := hcopy x hx.symm
  dsimp only
  split_ifs
  · obtain ⟨h₁, h₂⟩ := hsend { x.putBytes 47 [tcpAck ||| tcpPsh] with len := x.connr.len + 40 }
    exact ⟨h₁.trans hconns, h₂.trans hconn⟩
  · obtain ⟨h₁, h₂⟩ := hsend { x.putBytes 47 [tcpAck] with len := 40 }
    exact ⟨h₁.trans hconns, h₂.trans hconn⟩
  · exact ⟨hconns, hconn⟩

theorem apprexmit_connr (s : Stack) : s.apprexmit.connr = s.connr := by
  rw [connr, connr, (apprexmit_conns s).1, (apprexmit_conns s).2]

theorem uint16_pos {n : UInt16} (h : n ≠ 0) : 0 < n := UInt16.pos_iff_ne_zero.mpr h

theorem uint16_min_le (m n : UInt16) : min m n ≤ m ∧ min m n ≤ n := by
  rw [show min m n = if m ≤ n then m else n from rfl]
  split
  next h => exact ⟨UInt16.le_refl _, h⟩
  next h => exact ⟨UInt16.le_of_lt (UInt16.not_le.mp h), UInt16.le_refl _⟩

/-- The copy is exact when it is all that is outstanding, and that fits in a segment. -/
theorem exact_of_slen_eq {s : Stack} (h : s.slen = s.connr.len) (hle : s.slen ≤ uipTcpMss) :
    Exact s := by
  have hsmall : s.slen.toNat ≤ 1446 := UInt16.le_iff_toNat_le.mp hle
  refine ⟨?_, ?_, ?_⟩
  · rw [h]
    exact UInt16.le_refl _
  · rw [uipBufLen]
    omega
  · by_cases hslen : 0 < s.slen
    · have hcopy : s.apprexmit = (Stack.tcpSendNoopts { (s.putBytes 54
          (bytes s.sappdata 0 s.slen.toNat)).putBytes 47 [tcpAck ||| tcpPsh] with
          len := s.connr.len + 40 }) := by
        unfold apprexmit
        rw [if_pos hslen]
        exact if_pos ⟨hslen, h ▸ hslen⟩
      have hlen : (s.connr.len + 40).toNat = s.slen.toNat + 40 := by
        rw [← h, UInt16.toNat_add, Nat.mod_eq_of_lt]
        · rfl
        · change s.slen.toNat + 40 < 65536
          omega
      rw [hcopy, tcpSendNoopts_len, hlen, Nat.add_sub_cancel]
      have hdata : ∀ k, 54 ≤ k → (Stack.tcpSendNoopts { (s.putBytes 54
          (bytes s.sappdata 0 s.slen.toNat)).putBytes 47 [tcpAck ||| tcpPsh] with
          len := s.connr.len + 40 }).buf k = store s.buf 54 (bytes s.sappdata 0 s.slen.toNat) k := by
        intro k hk
        rw [tcpSendNoopts_data _ hk]
        exact putBytes_data _ (by decide) hk
      rw [bytes_congr fun k hk _ ↦ hdata k hk]
      exact bytes_store_of_length _ (bytes_length _ _ _)
    · have hzero : s.slen = 0 := by
        by_contra hne
        exact hslen (uint16_pos hne)
      have hlen : s.apprexmit.len.toNat - 40 = 0 := by
        unfold apprexmit
        rw [if_neg hslen]
        dsimp only
        rw [if_neg (fun hpos ↦ hslen hpos.1)]
        split
        · rw [tcpSendNoopts_len]
          rfl
        · rfl
      rw [hlen, hzero]
      rfl

end

/-- What the application has left for the label `appsend`. -/
structure Offers (t : Stack) (hs : Hs) : Prop where
  lport : t.connr.lport = 80
  func : hs.state ≠ .func
  noget : hs.state ≠ .noget
  count : t.slen = hs.count
  again : t.flags.ackdata = false → t.connr.len ≠ 0 → t.connr.len ≤ hs.count ∧ t.connr.len ≤ uipTcpMss

section

variable {fs : Fs} {n : ℕ} {T : Prop} {c : Conn} {hs : Hs} {s t : Stack} {u : ℕ → Uninit} {p : Packet}
  {a : List UInt8} {b : Board} {g : Vars} {h' : App}

theorem handBack_offers (hc : ConnOk c hs) (hcalled : Called T c t .appsend)
    (hr : uipAppcall fs n t.connr u p ⟨hs, b, g, t.flags, none, []⟩ = some (a, h'))
    (habort : h'.flags.abort = false) (hclose : h'.flags.close = false)
    (hslen : 0 < (handBack t a h').slen) : Offers (handBack t a h') h'.hs := by
  have hquiet : t.slen = 0 → h'.send = none → ¬ 0 < (handBack t a h').slen := by
    intro hzero hnone
    simp only [handBack, hnone, Option.elim_none, hzero]
    decide
  unfold uipAppcall at hr
  split at hr
  next hport =>
    cases hcalled with
    | connected hconnected hlen hzero =>
      exact absurd hslen (hquiet hzero (httpdAppcall_quiet (.inl hconnected) rfl hr))
    | polled hconnected hpoll hlen hzero =>
      exact absurd hslen (hquiet hzero (httpdAppcall_quiet (.inr hpoll) rfl hr))
    | data hkeeps hstate hconnected hpoll hevent hack hzero =>
      have hnoget : t.flags.newdata = false → hs.state ≠ .noget := fun hnew ↦
        (hc.sending hstate (hack (hevent hnew))).2.2.1
      obtain ⟨hsent, hflags⟩ := httpdAppcall_spec (h := ⟨hs, b, g, t.flags, none, []⟩) hconnected hpoll
        hnoget rfl hr
      have hsame : h'.flags = t.flags := by
        rcases hflags with hflags | hflags | hflags
        · exact hflags
        · rw [hflags] at habort
          cases habort
        · rw [hflags] at hclose
          cases hclose
      rcases hsent with hnone | ⟨hnone | ⟨hfunc, hsend⟩, hgood⟩
      · exact absurd hslen (hquiet hzero hnone)
      · exact absurd hslen (hquiet hzero hnone)
      refine ⟨hport, hfunc, ?_, ?_, ?_⟩
      · refine hgood.resolve_right ?_
        intro hflags'
        rw [hflags'] at habort
        cases habort
      · simp only [handBack, hsend, Option.elim_some]
      · intro hnack hlen
        have hnack' : t.flags.ackdata = false := (congrArg UipFlags.ackdata hsame).symm.trans hnack
        have hlen' : c.len ≠ 0 := by
          rw [← hkeeps.len]
          exact hlen
        obtain ⟨-, hfunc', hnoget', hcount, hmss⟩ := hc.sending hstate hlen'
        have hagain : httpdAppcall fs (n + 1) t.connr.len u p ⟨hs, b, g, t.flags, none, []⟩ =
            some (p.appdata, ⟨hs, b, g, t.flags, some (hs.dataptr, hs.count), []⟩) :=
          httpdAppcall_again hconnected hpoll hnack' hnoget' hfunc'
        rw [hagain] at hr
        obtain ⟨-, rfl⟩ := Prod.mk.inj (Option.some.inj hr)
        change t.connr.len ≤ hs.count ∧ t.connr.len ≤ uipTcpMss
        rw [hkeeps.len]
        exact ⟨hcount, hmss⟩
    | closing _ hnext => rcases hnext with hnext | hnext | hnext <;> cases hnext
  · obtain ⟨-, rfl⟩ := Prod.mk.inj (Option.some.inj hr)
    cases habort

/-- What is sent at `appsend` is outstanding afterwards, and it is the start of what is left. -/
theorem atApprexmit_ok (hmss : MssOk t.connr)
    (hoffers : t.flags.abort = false → t.flags.close = false → 0 < t.slen → Offers t hs)
    (h : atApprexmit t .appsend = some s) :
    ConnOk s.connr hs ∧ Exact s ∧ s.conn = t.conn ∧ ∀ k ≠ t.conn, s.conns k = t.conns k := by
  unfold atApprexmit at h
  dsimp only at h
  split at h
  · cases h
  next hflags =>
    rw [Bool.or_eq_true, not_or, Bool.not_eq_true, Bool.not_eq_true] at hflags
    split at h
    next hslen =>
      obtain ⟨hport, hfunc, hnoget, hcount, hagain⟩ := hoffers hflags.1 hflags.2 hslen
      generalize hc : (if t.flags.ackdata = true then { t.connr with len := 0 } else t.connr) = c at h
      have hport' : c.lport = 80 := by
        rw [← hc]
        split <;> exact hport
      have hmss' : MssOk c := by
        rw [← hc]
        split <;> exact hmss
      have hagain' : c.len ≠ 0 → c.len ≤ hs.count ∧ c.len ≤ uipTcpMss := by
        rw [← hc]
        split
        · exact fun hne ↦ absurd rfl hne
        next hnack => exact hagain (Bool.eq_false_iff.mpr hnack)
      generalize hn : (if c.len = 0 then min t.slen c.mss else c.len) = n at h
      have hle : n ≤ hs.count ∧ n ≤ uipTcpMss := by
        rw [← hn]
        split
        · obtain ⟨hleft, hright⟩ := uint16_min_le t.slen c.mss
          exact ⟨UInt16.le_trans hleft (UInt16.le_of_eq hcount), UInt16.le_trans hright hmss'.1⟩
        next hne => exact hagain' hne
      obtain rfl := Option.some.inj h
      have hconnr : (t.setConn { c with len := n, nrtx := 0 }).connr =
          { c with len := n, nrtx := 0 } := setConn_connr _ _
      refine ⟨?_, exact_of_slen_eq ?_ hle.2, rfl, fun k hk ↦ if_neg hk⟩
      · change ConnOk (t.setConn { c with len := n, nrtx := 0 }).connr hs
        rw [hconnr]
        exact ⟨hmss', fun _ _ ↦ ⟨hport', hfunc, hnoget, hle.1, hle.2⟩⟩
      · exact (congrArg Conn.len hconnr).symm
    next hslen =>
      obtain rfl := Option.some.inj h
      have hconnr : (t.setConn { t.connr with len := 0, nrtx := 0 }).connr =
          { t.connr with len := 0, nrtx := 0 } := setConn_connr _ _
      have hzero : t.slen = 0 := by
        by_contra hne
        exact hslen (uint16_pos hne)
      refine ⟨?_, exact_of_slen_eq ?_ ?_, rfl, fun k hk ↦ if_neg hk⟩
      · rw [hconnr]
        exact ⟨hmss, fun _ hne ↦ absurd rfl hne⟩
      · exact hzero.trans (congrArg Conn.len hconnr).symm
      · change t.slen ≤ uipTcpMss
        rw [hzero]
        decide

/-- Where `appsend` does not get to `apprexmit` the connection is closed. -/
theorem appsend_closes (h : atApprexmit t .appsend = none) :
    t.appsend.connr.state ≠ .established := by
  unfold atApprexmit at h
  unfold appsend
  dsimp only at h ⊢
  split at h
  next hflags =>
    split
    · rw [tcpSendNodata_connr]
      change (t.setConn { t.connr with state := .closed }).connr.state ≠ .established
      rw [setConn_connr]
      nofun
    next habort =>
      rw [if_pos ((Bool.or_eq_true _ _ ▸ hflags).resolve_left habort), tcpSendNodata_connr]
      change (t.setConn { t.connr with len := 1, state := .finWait1, nrtx := 0 }).connr.state ≠
        .established
      rw [setConn_connr]
      nofun
  · split at h <;> cases h

/-- Behind the call, too, only the connection `uip_conn` changes. -/
theorem resume_touches (s : Stack) (next : Resume) :
    Touches (fun c c' ↦ MssOk c → MssOk c') s (s.resume next) := by
  have hset : ∀ c, (MssOk s.connr → MssOk c) →
      Touches (fun c c' ↦ MssOk c → MssOk c') s (s.setConn c) :=
    fun c hc ↦ (Touches.refl s).setConn hc
  have hsend : ∀ (c : Conn) (flags : UInt8), (MssOk s.connr → MssOk c) →
      Touches (fun c c' ↦ MssOk c → MssOk c') s
        (Stack.tcpSendNodata { s.setConn c with slen := 0 } flags) := by
    intro c flags hc
    have hslen : Touches (fun c c' ↦ MssOk c → MssOk c') s { s.setConn c with slen := 0 } :=
      (hset c hc).behind rfl rfl
    exact hslen.sendNodata flags
  have hexmit : ∀ (c : Conn) (n : UInt16), (MssOk s.connr → MssOk c) →
      Touches (fun c c' ↦ MssOk c → MssOk c') s
        (Stack.apprexmit { s.setConn c with slen := n }) := by
    intro c n hc
    have hslen : Touches (fun c c' ↦ MssOk c → MssOk c') s { s.setConn c with slen := n } :=
      (hset c hc).behind rfl rfl
    exact hslen.behind (apprexmit_conns _).1 (apprexmit_conns _).2
  cases next with
  | appsend =>
    unfold resume appsend
    dsimp only
    split
    · exact hsend _ _ id
    split
    · exact hsend _ _ id
    split
    · apply hexmit
      intro hmss
      split <;> exact hmss
    · exact hexmit _ s.slen id
  | apprexmit => exact ((Touches.refl s).quiet.mss).behind (apprexmit_conns s).1 (apprexmit_conns s).2
  | drop => exact ((Touches.refl s).quiet.mss).behind rfl rfl
  | finack => exact (hset { s.connr with len := 1, state := .lastAck, nrtx := 0 } id).sendNodata _
  | sendAck => exact (Touches.refl s).quiet.mss.sendNodata _
  | sendRst => exact (Touches.refl s).quiet.mss.sendNodata _

end

section

variable {fs : Fs} {n : ℕ} {T : Prop} {srv : Server} {s : Stack} {u : ℕ → Uninit}

/-- Where `uip_process` does not get to `apprexmit` the connection is closed. -/
theorem resume_closes {t : Stack} {next : Resume} (hat : atApprexmit t next = none)
    (hstate : t.connr.state ≠ .established ∨ next = .appsend ∨ next = .finack) :
    (t.resume next).connr.state ≠ .established := by
  cases next with
  | appsend => exact appsend_closes hat
  | apprexmit => cases hat
  | drop => exact hstate.resolve_right (by decide)
  | finack =>
    unfold resume
    rw [tcpSendNodata_connr, setConn_connr]
    nofun
  | sendAck =>
    unfold resume tcpSendAck
    rw [tcpSendNodata_connr]
    exact hstate.resolve_right (by decide)
  | sendRst =>
    unfold resume
    rw [tcpSendNodata_connr]
    exact hstate.resolve_right (by decide)

/-- For a retransmission the application hands over all that is left of the file. -/
theorem appcall_again {c : Conn} {hs : Hs} {t : Stack} (fs : Fs) (n : ℕ) (u : ℕ → Uninit) (b : Board)
    (g : Vars) (p : Packet)
    (hcalled : Called T c t .apprexmit) (hc : ConnOk c hs) :
    uipAppcall fs n t.connr u p ⟨hs, b, g, t.flags, none, []⟩ =
        some (p.appdata, ⟨hs, b, g, t.flags, some (hs.dataptr, hs.count), []⟩) ∧
      (T ∧ Retransmits c) ∧ Keeps c t.connr := by
  cases hcalled with
  | rexmit hkeeps hretransmits hflags hslen =>
    obtain ⟨hport, hfunc, hnoget, hcount, hmss⟩ := hc.sending hretransmits.2.1 hretransmits.2.2.1
    refine ⟨?_, hretransmits, hkeeps⟩
    unfold uipAppcall
    rw [if_pos (hkeeps.lport.trans hport)]
    exact httpdAppcall_again (by rw [hflags]) (by rw [hflags]) (by rw [hflags]) hnoget hfunc
  | closing _ hnext => rcases hnext with hnext | hnext | hnext <;> cases hnext

theorem call_spec {c : Conn} {hs : Hs} {t : Stack} {next : Resume} {b : Board} {g : Vars} {p : Packet}
    {a : List UInt8} {h' : App} (hc : ConnOk c hs) (hmss : MssOk c → MssOk t.connr)
    (hcalled : Called T c t next)
    (hr : uipAppcall fs n t.connr u p ⟨hs, b, g, t.flags, none, []⟩ = some (a, h')) :
    ConnOk ((handBack t a h').resume next).connr h'.hs ∧
      ∀ s, atApprexmit (handBack t a h') next = some s → Exact s ∨
        ((T ∧ Retransmits c) ∧ s.slen = hs.count ∧ s.connr.len = c.len) := by
  have hmss' : MssOk ((handBack t a h').resume next).connr :=
    (resume_touches (handBack t a h') next).rel (hmss hc.mss)
  cases hat : atApprexmit (handBack t a h') next with
  | none =>
    refine ⟨⟨hmss', fun hest ↦ absurd hest (resume_closes hat ?_)⟩, nofun⟩
    cases hcalled with
    | connected => exact .inr (.inl rfl)
    | polled => exact .inr (.inl rfl)
    | data => exact .inr (.inl rfl)
    | rexmit => cases hat
    | finack => exact .inr (.inr rfl)
    | closing hstate hnext => exact .inl hstate
  | some x =>
    have hconnr : ((handBack t a h').resume next).connr = x.connr := by
      rw [resume_eq_apprexmit hat, apprexmit_connr]
    rw [hconnr]
    cases next with
    | appsend =>
      obtain ⟨hok, hexact, -, -⟩ := atApprexmit_ok (t := handBack t a h') (hmss hc.mss)
        (handBack_offers hc hcalled hr) hat
      refine ⟨hok, ?_⟩
      intro y hy
      obtain rfl := Option.some.inj hy
      exact .inl hexact
    | apprexmit =>
      obtain rfl := Option.some.inj hat
      obtain ⟨hagain, hretransmits, hkeeps⟩ := appcall_again fs n u b g p hcalled hc
      rw [hagain] at hr
      obtain ⟨-, rfl⟩ := Prod.mk.inj (Option.some.inj hr)
      refine ⟨connOk_of_quiet hkeeps.quiet hc, ?_⟩
      intro y hy
      obtain rfl := Option.some.inj hy
      exact .inr ⟨hretransmits, rfl, hkeeps.len⟩
    | drop => cases hat
    | finack => cases hat
    | sendAck => cases hat
    | sendRst => cases hat

/-- The call of the application and what follows keep the invariant, and copy exactly, except for a
retransmission, which copies all that is left. -/
theorem finish_spec (hinv : Inv srv) {b : Before} (hb : Processed T s b)
    (hconns : s.conns = srv.stack.conns) {r : Server × Option Stack} (hr : finish fs n srv u b = some r) :
    Inv r.1 ∧ ∀ t, r.2 = some t → Exact t ∨
      ((T ∧ Retransmits s.connr) ∧ t.slen = (srv.hs s.conn).count ∧ t.connr.len = s.connr.len) := by
  have hc : ConnOk s.connr (srv.hs s.conn) := by
    rw [connr, hconns]
    exact hinv s.conn
  cases hb with
  | @done t htouches =>
    obtain rfl := Option.some.inj hr
    refine ⟨?_, fun t ht ↦ by cases ht⟩
    intro k
    by_cases hk : k = s.conn
    · have hrel := htouches.rel
      rw [connr, connr, htouches.conn, ← hk] at hrel
      rw [connr, ← hk] at hc
      exact connOk_of_quiet hrel hc
    · change ConnOk (t.conns k) (srv.hs k)
      rw [htouches.others k hk, hconns]
      exact hinv k
  | @call t next htouches hcalled =>
    obtain ⟨⟨a, h'⟩, happ, rfl⟩ := Option.map_eq_some_iff.mp hr
    rw [htouches.conn] at happ
    obtain ⟨hok, hexact⟩ := call_spec hc htouches.rel hcalled happ
    refine ⟨?_, hexact⟩
    obtain ⟨hconn, hothers, -⟩ := resume_touches (handBack t a h') next
    have hconn' : (handBack t a h').conn = s.conn := htouches.conn
    intro k
    change ConnOk (((handBack t a h').resume next).conns k)
      (if k = t.conn then h'.hs else srv.hs k)
    by_cases hk : k = s.conn
    · rw [connr, hconn, hconn', ← hk] at hok
      rwa [if_pos (hk.trans htouches.conn.symm)]
    · rw [if_neg (by rwa [htouches.conn]), hothers k (by rwa [hconn'])]
      change ConnOk (t.conns k) (srv.hs k)
      rw [htouches.others k hk, hconns]
      exact hinv k

theorem step_inv (hinv : Inv srv) {e : Event} {r : Server × Option Stack}
    (hr : step fs n srv e = some r) : Inv r.1 := by
  cases e with
  | frame buf len u =>
    obtain ⟨b, hb, hr⟩ := Option.bind_eq_some_iff.mp hr
    obtain ⟨k, hk⟩ := input_processed (T := False) hb
    exact (finish_spec hinv hk rfl hr).1
  | timer k u =>
    exact (finish_spec (s := { srv.stack with conn := k }) hinv (timer_processed _) rfl hr).1

theorem step_of_retransmits (fs : Fs) (n : ℕ) (u : ℕ → Uninit) (hinv : Inv srv) {k : ℕ} (h : Retransmits (srv.stack.conns k)) :
    ∃ r t, step fs n srv (.timer k u) = some (r, some t) ∧ t.slen = (srv.hs k).count ∧
      t.connr.len = (srv.stack.conns k).len := by
  obtain ⟨t, ht⟩ := timer_of_retransmits (s := { srv.stack with conn := k }) h
  have hb := timer_processed { srv.stack with conn := k }
  rw [ht] at hb
  cases hb with
  | call htouches hcalled =>
    have hconn : t.conn = k := htouches.conn
    have hc : ConnOk (srv.stack.conns k) (srv.hs t.conn) := by
      rw [hconn]
      exact hinv k
    obtain ⟨hagain, -, hkeeps⟩ := appcall_again fs n u srv.board srv.vars
      ⟨bytes t.buf t.appdata (uipBufLen - t.appdata), t.len.toNat⟩ hcalled hc
    have hstep : step fs n srv (.timer k u) = finish fs n srv u (.call t .apprexmit) :=
      congrArg (finish fs n srv u) ht
    rw [hstep, finish, hagain]
    refine ⟨_, handBack t _ _, rfl, ?_, hkeeps.len⟩
    rw [← hconn]
    rfl

/-- One event copies exactly just when what it retransmits is the last segment. -/
theorem step_exact_iff (hinv : Inv srv) (e : Event) :
    (∀ r t, step fs n srv e = some (r, some t) → Exact t) ↔ LastSegment srv e := by
  cases e with
  | frame buf len u =>
    refine iff_of_true ?_ trivial
    intro r t hr
    obtain ⟨b, hb, hr⟩ := Option.bind_eq_some_iff.mp hr
    obtain ⟨k, hk⟩ := input_processed (T := False) hb
    exact ((finish_spec hinv hk rfl hr).2 t rfl).resolve_right fun h ↦ h.1.1
  | timer k u =>
    constructor
    · intro hexact hret
      obtain ⟨r, t, hr, hslen, hlen⟩ := step_of_retransmits fs n u hinv hret
      rw [← hslen, ← hlen]
      exact (hexact r t hr).count
    · intro hlast r t hr
      rcases (finish_spec (s := { srv.stack with conn := k }) hinv (timer_processed _) rfl hr).2 t rfl
        with hexact | ⟨⟨-, hret⟩, hslen, hlen⟩
      · exact hexact
      · obtain ⟨-, -, -, hcount, hmss⟩ := (hinv k).sending hret.1 hret.2.1
        have hcount' : (srv.hs k).count = (srv.stack.conns k).len :=
          UInt16.le_antisymm (hlast hret) hcount
        refine exact_of_slen_eq ?_ ?_
        · exact hslen.trans (hcount'.trans hlen.symm)
        · rw [hslen]
          exact UInt16.le_trans (UInt16.le_of_eq hcount') hmss

/-- In every run from `uip_init` on, each copy into the packet buffer is exact just when each
retransmission is one of the last segment. -/
theorem transmission_exact_iff (hstart : Started srv) (es : List Event) :
    (∀ x ∈ steps fs n srv es, ∀ r t, step fs n x.1 x.2 = some (r, some t) → Exact t) ↔
      ∀ x ∈ steps fs n srv es, LastSegment x.1 x.2 := by
  have hinv := hstart.inv
  clear hstart
  induction es generalizing srv with
  | nil => simp only [steps, List.not_mem_nil, false_implies, implies_true]
  | cons e es ih =>
    rw [steps, List.forall_mem_cons, List.forall_mem_cons, step_exact_iff hinv e]
    cases hr : step fs n srv e with
    | none => simp only [Option.elim_none, List.not_mem_nil, false_implies, implies_true]
    | some r =>
      rw [Option.elim_some]
      exact and_congr_right fun _ ↦ ih (step_inv hinv hr)

end

/-- The files, with a page of `n` bytes behind its first line. -/
def pages (n : ℕ) : Fs where
  data page :=
    if page = .cgiIndex then ascii "c a\n.\n" else ascii "HTTP/1.0 " ++ List.replicate n 0x41
  script := rfl
  reply := by
    intro page hpage
    rw [if_neg hpage]
    rfl

/-- The server behind `uip_init`. -/
def fresh : Server where
  stack :=
    { FrameIntegrity.withFrame [] with
      conns := fun _ ↦ { FrameIntegrity.openConn with state := .closed } }
  hs _ := ⟨.noget, 0, [], none⟩
  board := ⟨false, fun _ ↦ 0⟩
  vars := startUp fun _ ↦ 0

theorem fresh_started : Started fresh := fun _ ↦ ⟨rfl, UInt16.le_refl _, UInt16.le_refl _⟩

def frameOf (frame : List UInt8) : Event :=
  .frame (fun i ↦ frame.getD i 0) (UInt16.ofNat frame.length) fun _ ↦ ⟨0, 0⟩

/-- A client that announces an MSS of one byte opens a connection. -/
def handshake : List Event :=
  [frameOf (FrameIntegrity.headers 44 0x77 ++ [4, 0, 0, 80, 0, 0, 3, 0xe7, 0, 0, 0, 0, 0x60, 2, 0x20,
      0, 0xf4, 0x4e, 0, 0, 2, 4, 0, 1, 0, 0]),
    frameOf (FrameIntegrity.headers 40 0x7b ++ [4, 0, 0, 80, 0, 0, 3, 0xe8, 0, 0, 0, 1, 0x50, 0x10,
      0x20, 0, 6, 0x48, 0, 0, 0, 0, 0, 0, 0, 0])]

/-- Its `GET / `. -/
def get : Event :=
  frameOf (FrameIntegrity.headers 46 0x75 ++ [4, 0, 0, 80, 0, 0, 3, 0xe8, 0, 0, 0, 1, 0x50, 0x18,
    0x20, 0, 0x3b, 0xb4, 0, 0, 0x47, 0x45, 0x54, 0x20, 0x2f, 0x20])

def tick : Event := .timer 0 fun _ ↦ ⟨0, 0⟩

/-- The bytes that an event behind others copies, and those that are outstanding. -/
def copied (fs : Fs) (es : List Event) (e : Event) : Option (UInt16 × UInt16) :=
  ((es.foldlM (fun srv e ↦ (step fs 2 srv e).map Prod.fst) fresh).bind fun srv ↦
    (step fs 2 srv e).bind Prod.snd).map fun t ↦ (t.slen, t.connr.len)

theorem exists_of_copied {fs : Fs} {es : List Event} {e : Event} {m n : UInt16}
    (h : copied fs es e = some (m, n)) : ∃ x ∈ steps fs 2 fresh (es ++ [e]), ∃ r t,
      step fs 2 x.1 x.2 = some (r, some t) ∧ t.slen = m ∧ t.connr.len = n := by
  obtain ⟨t, ht, hmn⟩ := Option.map_eq_some_iff.mp h
  obtain ⟨rfl, rfl⟩ := Prod.mk.inj hmn
  obtain ⟨srv, hrun, hlast⟩ := Option.bind_eq_some_iff.mp ht
  obtain ⟨⟨r, _⟩, hr, rfl⟩ := Option.bind_eq_some_iff.mp hlast
  refine ⟨(srv, e), ?_, r, t, hr, rfl, rfl⟩
  clear h ht hr
  generalize fresh = srv₀ at hrun ⊢
  induction es generalizing srv₀ with
  | nil =>
    obtain rfl := Option.some.inj hrun
    exact List.mem_cons_self
  | cons d es ih =>
    rw [List.foldlM_cons] at hrun
    obtain ⟨srv₁, hstep, hrun⟩ := Option.bind_eq_some_iff.mp hrun
    obtain ⟨r₁, hr₁, rfl⟩ := Option.map_eq_some_iff.mp hstep
    rw [List.cons_append, steps, hr₁, Option.elim_some]
    exact List.mem_cons_of_mem _ (ih _ hrun)

theorem mem_steps {fs : Fs} {n : ℕ} {srv : Server} {es : List Event} {x : Server × Event}
    (h : x ∈ steps fs n srv es) : x.2 ∈ es := by
  induction es generalizing srv with
  | nil => cases h
  | cons e es ih =>
    rw [steps, List.mem_cons] at h
    rcases h with rfl | h
    · exact List.mem_cons_self
    cases hr : step fs n srv e with
    | none =>
      rw [hr] at h
      cases h
    | some r =>
      rw [hr] at h
      exact List.mem_cons_of_mem _ (ih h)

theorem transmission_exact_get :
    copied (pages 1500) handshake get = some (1, 1) ∧
      ∀ x ∈ steps (pages 1500) 2 fresh (handshake ++ [get]), ∀ r t,
        step (pages 1500) 2 x.1 x.2 = some (r, some t) → Exact t := by
  refine ⟨by decide +kernel, (transmission_exact_iff fresh_started _).mpr ?_⟩
  intro x hx
  have hmem : x.2 ∈ handshake ++ [get] := mem_steps hx
  rw [handshake, List.cons_append, List.cons_append, List.nil_append, List.mem_cons, List.mem_cons,
    List.mem_singleton] at hmem
  obtain ⟨srv, e⟩ := x
  rcases hmem with rfl | rfl | rfl
  · trivial
  · trivial
  · trivial

/-- The retransmission of one byte copies the whole page, past the end of `uip_buf`. -/
theorem transmission_overruns :
    ¬ ∀ (fs : Fs) (n : ℕ) (srv : Server), Started srv → ∀ es : List Event, ∀ x ∈ steps fs n srv es,
      ∀ r t, step fs n x.1 x.2 = some (r, some t) → Exact t := by
  intro hall
  have hcopied : copied (pages 1500) (handshake ++ get :: List.replicate 3 tick) tick =
      some (1509, 1) := by decide +kernel
  obtain ⟨x, hx, r, t, hr, hslen, hlen⟩ := exists_of_copied hcopied
  have hinside := (hall _ _ _ fresh_started _ x hx r t hr).inside
  rw [hslen] at hinside
  exact absurd hinside (by decide)

end UBoot.Httpd.Transmit
