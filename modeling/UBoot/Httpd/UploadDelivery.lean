import Mathlib.Tactic.MkIffOfInductiveProp
import UBoot.Httpd.Reject
import UBoot.Httpd.ResponseStream
import UBoot.Httpd.SegmentHandling

namespace UBoot.Httpd.UploadDelivery

open Lib.Memory Lib.CString Cgi Appcall Uip Uip.Stack Connections ReceivePath SegmentHandling Transmit
  ResponseStream

/-- The peer of an upload: the bytes that it sends behind its SYN, and the number of the first. -/
structure Peer where
  stream : List UInt8
  first : Seq

/-- A segment of the peer, when `acked` numbers are acknowledged, has the bytes that its sequence
number says, and a FIN only behind the last byte of the stream. The number is no older or newer than
2^32. -/
@[mk_iff]
structure Genuine (P : Peer) (acked : ℕ) (s : Stack) : Prop where
  header : s.tcpHlen + 20 ≤ s.ipLen
  data : 0 < dataLen s ∨ s.hasFlag tcpFin = true → ∃ off ≤ P.stream.length,
    s.seqno.toNat = (P.first.toNat + off) % 4294967296 ∧
    acked < off + 4294967296 ∧ off < acked + 4294967296 ∧
    off + dataLen s ≤ P.stream.length ∧
    bytes s.buf (uipLlhLen + 20 + s.tcpHlen) (dataLen s) = (P.stream.drop off).take (dataLen s) ∧
    (s.hasFlag tcpFin = true → off + dataLen s = P.stream.length)

section

variable (fs : Fs) (n : ℕ)

/-- What `httpd_appcall` comes to the test of `HTTP_FUNC` with, behind the request line of a first
segment. -/
def entry (u : Uninit) (p : Packet) (h : App) : Option (ℕ × Packet × App) :=
  if h.flags.newdata = true ∧ h.hs.state = .noget then
    let get := hasPrefix p.appdata (ascii "GET ")
    if !get && !hasPrefix p.appdata (ascii "POST ") then none
    else
      let offset := if get then 0 else 1
      let appdata := terminateUrl offset p.appdata
      let (page, h) := openPage offset appdata h
      (serve fs u { p with appdata := appdata } offset page h).map fun (appdata, h) ↦
        (offset, { p with appdata := appdata }, h)
  else some (0, p, h)

/-- A packet of the data phase that reaches the size of the file. -/
def Completes (g : Vars) (p : Packet) : Prop :=
  g.totalPackets = 3 ∧ (g.totalSize ≠ 0 ∨ g.supportSafari = true) ∧
    ¬ g.totalSize + UInt32.ofNat p.datalen < g.totalFilesize

/-- The application takes the data: they do not come behind the upload or ask for a page, and they do
not complete the upload with the text `/cgi/` where the request has it. -/
def TakesData (u : ℕ → Uninit) (p : Packet) (h : App) : Prop :=
  h.hs.state ≠ .file ∧ ∀ x ∈ entry fs (u (n + 1)) p h, x.2.2.hs.state ≠ .file ∧
    (x.2.2.hs.state = .func → Completes x.2.2.vars x.2.1 →
      hasPrefix (x.2.1.appdata.drop (4 + x.1)) (ascii "/cgi/") = false)

/-- A segment whose data are acknowledged on an open connection. -/
@[mk_iff]
structure Accepted (s : Stack) (c : Conn) : Prop where
  state : c.state = .established
  data : 0 < dataLen s
  seqno : s.seqno = c.rcvNxt
  fin : s.hasFlag tcpFin = true → c.len = 0

/-- What the application is called with. -/
def packetOf (s : Stack) : Packet := ⟨bytes s.buf s.appdata (uipBufLen - s.appdata), s.len.toNat⟩

def appOf (srv : Server) (k : ℕ) (flags : UipFlags) : App :=
  ⟨srv.hs k, srv.board, srv.vars, flags, none, []⟩

/-- The condition on a segment `s` of the peer for the connection `k`: the handshake brings no data,
data come without options and urgent data and while the upload is under way, and a FIN is in order. -/
@[mk_iff]
structure Fitting (P : Peer) (acked k : ℕ) (srv : Server) (s : Stack) (u : ℕ → Uninit) : Prop where
  genuine : Genuine P acked s
  handshake : (srv.stack.conns k).state = .synRcvd →
    FrameIntegrity.acks s (srv.stack.conns k) = true → s.seqno = (srv.stack.conns k).rcvNxt →
      dataLen s = 0
  urgent : dataLen s = 0 ∨ s.seqno = (srv.stack.conns k).rcvNxt →
    ∀ m ∈ FrameIntegrity.skipped s (srv.stack.conns k) (dataLen s), m = 0
  fin : (srv.stack.conns k).state = .established → (srv.stack.conns k).len = 0 →
    s.hasFlag tcpFin = true → dataLen s = 0 → s.seqno = (srv.stack.conns k).rcvNxt
  options : Accepted s (srv.stack.conns k) → s.tcpHlen = 20
  takes : Accepted s (srv.stack.conns k) → TakesData fs n u
    ⟨bytes s.buf (uipLlhLen + 40) (uipBufLen - (uipLlhLen + 40)), dataLen s⟩
    (appOf srv k { newdata := true, close := s.hasFlag tcpFin })

/-- The condition on an event. A reset only comes while no upload is under way. -/
def Fits (P : Peer) (acked k : ℕ) (srv : Server) : Event → Prop
  | .frame buf len u =>
    let s := { srv.stack with buf := buf, len := len }
    FrameIntegrity.segmentOf s = some k →
      (s.hasFlag tcpRst = true → (srv.hs k).state ≠ .func) ∧
        (s.hasFlag tcpRst = false → Fitting fs n P acked k srv s u)
  | .timer .. => True

/-- The call of the application in an event, with the stack that it gets and what it leaves. -/
def calledWith (srv : Server) (u : ℕ → Uninit) : Before → Option (Stack × App)
  | .done _ => none
  | .call s _ =>
    (uipAppcall fs n s.connr u (packetOf s) (appOf srv s.conn s.flags)).map fun (_, h) ↦ (s, h)

def called (srv : Server) : Event → Option (Stack × App)
  | .frame buf len u =>
    (input { srv.stack with buf := buf, len := len }).bind (calledWith fs n srv u)
  | .timer k u => calledWith fs n srv u (timer { srv.stack with conn := k })

/-- The bytes that `upgrade_cgi` takes: the `uip_datalen()` bytes at `uip_appdata`, in each call. -/
def taken (k : ℕ) : Option (Stack × App) → List UInt8
  | none => []
  | some (s, h) =>
    if s.conn = k then h.calls.flatMap fun _ ↦ bytes s.buf s.appdata s.len.toNat else []

/-- The application closes or aborts. -/
def endsIn (k : ℕ) : Option (Stack × App) → Bool
  | none => false
  | some (s, h) => s.conn = k && h.flags ≠ s.flags

/-- How far `rcv_nxt` has moved. -/
def moved (c c' : Conn) : ℕ := (c'.rcvNxt.toNat + 4294967296 - c.rcvNxt.toNat) % 4294967296

/-- The server with what has come on one connection: the bytes that `upgrade_cgi` has taken, how many
sequence numbers are acknowledged, and whether the application has closed or aborted. -/
structure Upload where
  srv : Server
  got : List UInt8
  acked : ℕ
  ended : Bool

def Upload.step (k : ℕ) (x : Upload) (e : Event) : Option Upload :=
  (Transmit.step fs n x.srv e).map fun r ↦
    ⟨r.1, x.got ++ taken k (called fs n x.srv e),
      x.acked + moved (x.srv.stack.conns k) (r.1.stack.conns k),
      x.ended || endsIn k (called fs n x.srv e)⟩

/-- The events of a run, each with the state that it meets. -/
def Upload.steps (k : ℕ) (x : Upload) : List Event → List (Upload × Event)
  | [] => []
  | e :: es => (x, e) :: (x.step fs n k e).elim [] fun y ↦ y.steps k es

/-- The events up to the end of the connection. -/
def Upload.liveSteps (k : ℕ) (x : Upload) (es : List Event) : List (Upload × Event) :=
  (x.steps fs n k es).takeWhile fun y ↦ Live (y.1.srv.stack.conns k)

end

/-- `upgrade_cgi` has got a prefix of the stream: all that is acknowledged, unless the application has
ended the connection. A FIN counts as one more byte. -/
structure Delivered (P : Peer) (got : List UInt8) (acked : ℕ) (ended : Bool) : Prop where
  inOrder : got <+: P.stream
  exactly : ended = false → got = P.stream.take acked

section

variable {fs : Fs} {n offset : ℕ} {len : UInt16} {u : ℕ → Uninit} {p : Packet} {h h' : App}
  {a : List UInt8}

/-- The application is in one of the states that it has while the connection is open. -/
def AppOpen (hs : Hs) : Prop :=
  hs.state = .noget ∨ hs.state = .func ∨ hs.state = .file ∧ hs.script = none

theorem upgradeCgi_completes {b : Board} {u : Uninit} {p : Packet} {g g' : Vars} {ret : ℕ}
    (h : upgradeCgi b u false p g = some (ret, a, g')) (hret : ret = 1 ∨ ret = 2) :
    Completes g p ∧ a = p.appdata := by
  have hret' : ret ≠ 0 := by
    rintro rfl
    rcases hret with hret | hret
    all_goals cases hret
  have hfirst : ¬ g.totalPackets = 0 := fun hp ↦ hret' (Reject.upgradeCgi_first_ret h hp)
  rw [upgradeCgi, if_neg (by decide), if_neg hfirst, upgradeBody] at h
  split at h
  · obtain ⟨⟨r, g₁⟩, -, h⟩ := Option.bind_eq_some_iff.mp h
    obtain ⟨⟨a₁, g₂⟩, -, h⟩ := Option.map_eq_some_iff.mp h
    exact absurd (congrArg Prod.fst h).symm hret'
  split at h
  next hdata =>
    generalize hpacket : dataPacket b p g = packet at h
    obtain ⟨ret₁, g₁⟩ := packet
    obtain ⟨rfl, hrest⟩ := Prod.mk.inj (Option.some.inj h)
    refine ⟨⟨hdata.2, hdata.1, ?_⟩, (Prod.mk.inj hrest).1.symm⟩
    intro hlt
    rw [dataPacket] at hpacket
    dsimp only at hpacket
    rw [if_pos hlt] at hpacket
    split at hpacket
    all_goals exact hret' (congrArg Prod.fst hpacket).symm
  · exact absurd (congrArg Prod.fst (Option.some.inj h)).symm hret'

theorem callCgi_quiet (hfunc : h.hs.state ≠ .func) (hack : h.flags.ackdata = false)
    (hr : callCgi fs offset len u n p h = some (a, h')) :
    h'.calls = h.calls ∧ h'.flags = h.flags ∧ h'.hs = h.hs := by
  cases n with
  | zero => cases hr
  | succ n =>
    rw [callCgi, if_neg hfunc, acked, if_neg (by rw [hack]; decide), Option.map_some,
      Option.some_inj] at hr
    dsimp only at hr
    split at hr
    · obtain ⟨-, rfl⟩ := Prod.mk.inj hr
      exact ⟨rfl, rfl, rfl⟩
    · obtain ⟨-, rfl⟩ := Prod.mk.inj hr
      exact ⟨rfl, rfl, rfl⟩

theorem callCgi_file (hfile : h.hs.state = .file) (hscript : h.hs.script = none)
    (hr : callCgi fs offset len u n p h = some (a, h')) :
    h'.calls = h.calls ∧ (h'.flags = h.flags ∨ h'.flags = { close := true }) ∧
      h'.hs.state = .file ∧ h'.hs.script = none := by
  cases n with
  | zero => cases hr
  | succ n =>
    have hfunc : h.hs.state ≠ .func := by
      rw [hfile]
      nofun
    rw [callCgi, if_neg hfunc, acked] at hr
    obtain ⟨⟨appdata, h₁⟩, hacked, hr⟩ := Option.map_eq_some_iff.mp hr
    have h₁spec : h₁.calls = h.calls ∧ (h₁.flags = h.flags ∨ h₁.flags = { close := true }) ∧
        h₁.hs.state = .file ∧ h₁.hs.script = none := by
      generalize hhs : (if len ≤ h.hs.count then
        { h.hs with count := h.hs.count - len, dataptr := h.hs.dataptr.drop len.toNat }
        else { h.hs with count := 0 } : Hs) = hs at hacked
      have hkeep : hs.state = .file ∧ hs.script = none := by
        rw [← hhs]
        split <;> exact ⟨hfile, hscript⟩
      dsimp only at hacked
      rw [hkeep.2] at hacked
      split at hacked
      · split at hacked
        · obtain ⟨-, rfl⟩ := Prod.mk.inj (Option.some.inj hacked)
          exact ⟨rfl, .inr rfl, hkeep⟩
        · obtain ⟨-, rfl⟩ := Prod.mk.inj (Option.some.inj hacked)
          exact ⟨rfl, .inl rfl, hkeep⟩
      · obtain ⟨-, rfl⟩ := Prod.mk.inj (Option.some.inj hacked)
        exact ⟨rfl, .inl rfl, hfile, hscript⟩
    dsimp only at hr
    split at hr
    · obtain ⟨-, rfl⟩ := Prod.mk.inj hr
      exact h₁spec
    · obtain ⟨-, rfl⟩ := Prod.mk.inj hr
      exact h₁spec

/-- A segment of the upload is taken once. -/
theorem callCgi_upload (hfunc : h.hs.state = .func) (hack : h.flags.ackdata = false)
    (htext : Completes h.vars p → hasPrefix (p.appdata.drop (4 + offset)) (ascii "/cgi/") = false)
    (hr : callCgi fs offset len u (n + 1) p h = some (a, h')) :
    ∃ range, h'.calls = range :: h.calls ∧ h'.flags = h.flags ∧ AppOpen h'.hs := by
  have hpage : ∀ (page : Page) (q : Packet) (x y : App) (b c : List UInt8),
      serve fs (u n) q offset page x = some (b, y) →
      callCgi fs offset len u n { q with appdata := b } y = some (c, h') →
      hasPrefix (q.appdata.drop (4 + offset)) (ascii "/cgi/") = false → x.flags.ackdata = false →
      h'.calls = x.calls ∧ h'.flags = x.flags ∧ AppOpen h'.hs := by
    intro page q x y b c hserve hrest hno hack'
    rw [serve, if_neg (by rw [hno]; decide)] at hserve
    obtain ⟨rfl, hy⟩ := Prod.mk.inj (Option.some.inj hserve)
    have hfile : y.hs.state ≠ .func := by
      rw [← hy]
      nofun
    obtain ⟨hcalls, hflags, hhs⟩ := callCgi_quiet hfile (by rw [← hy]; exact hack') hrest
    rw [AppOpen, hcalls, hflags, hhs, ← hy]
    exact ⟨rfl, rfl, .inr (.inr ⟨rfl, rfl⟩)⟩
  rw [callCgi, if_pos hfunc, hack] at hr
  obtain ⟨⟨ret, appdata, vars⟩, hcgi, hr⟩ := Option.bind_eq_some_iff.mp hr
  have hno : ret = 1 ∨ ret = 2 → hasPrefix (appdata.drop (4 + offset)) (ascii "/cgi/") = false := by
    intro hret
    obtain ⟨hcompletes, hsame⟩ := upgradeCgi_completes hcgi hret
    rw [hsame]
    exact htext hcompletes
  dsimp only at hr
  split at hr
  next hret =>
    obtain ⟨⟨b, y⟩, hserve, hr⟩ := Option.bind_eq_some_iff.mp hr
    obtain ⟨hcalls, hflags, hopen⟩ := hpage .counter _ _ y b a hserve hr (hno (.inl hret)) hack
    exact ⟨_, hcalls, hflags, hopen⟩
  split at hr
  next hret =>
    obtain ⟨⟨b, y⟩, hserve, hr⟩ := Option.bind_eq_some_iff.mp hr
    obtain ⟨hcalls, hflags, hopen⟩ := hpage .error _ _ y b a hserve hr (hno (.inr hret)) hack
    exact ⟨_, hcalls, hflags, hopen⟩
  · obtain ⟨-, rfl⟩ := Prod.mk.inj (Option.some.inj hr)
    exact ⟨_, rfl, rfl, .inr (.inl hfunc)⟩

/-- What the application makes of a segment, while the connection is open. -/
structure Answered (h h' : App) : Prop where
  calls : h'.calls.length = 1 ∨ h'.calls = [] ∧ (h.flags.newdata = false ∨ h'.flags ≠ h.flags)
  outcome : h'.flags = { abort := true } ∨ h'.flags = h.flags ∧ AppOpen h'.hs ∨
    h'.flags = { close := true } ∧ h'.hs.state ≠ .func

theorem httpdAppcall_answered (hcalls : h.calls = []) (hconnected : h.flags.connected = false)
    (hpoll : h.flags.poll = false) (habort : h.flags.abort = false) (hopen : AppOpen h.hs)
    (hack : h.flags.ackdata = true → h.hs.state = .file)
    (hquiet : h.flags.newdata = false → h.hs.state = .file)
    (htakes : h.flags.newdata = true → TakesData fs n u p h)
    (hr : httpdAppcall fs (n + 1) len u p h = some (a, h')) : Answered h h' := by
  have hupload : ∀ (offset : ℕ) (q : Packet) (x : App), x.hs.state = .func → x.calls = [] →
      x.flags = h.flags → h.flags.ackdata = false →
      (Completes x.vars q → hasPrefix (q.appdata.drop (4 + offset)) (ascii "/cgi/") = false) →
      callCgi fs offset len u (n + 1) q x = some (a, h') → Answered h h' := by
    intro offset q x hfunc hnone hsame hack' htext hrest
    obtain ⟨range, hrange, hflags, hopen'⟩ :=
      callCgi_upload hfunc (by rw [hsame]; exact hack') htext hrest
    refine ⟨.inl ?_, .inr (.inl ⟨hflags.trans hsame, hopen'⟩)⟩
    rw [hrange, hnone]
    rfl
  have hrefused : h'.calls = [] → h'.flags = { abort := true } → Answered h h' := by
    intro hnone hflags
    refine ⟨.inr ⟨hnone, .inr ?_⟩, .inl hflags⟩
    intro hsame
    rw [← hsame, hflags] at habort
    cases habort
  cases hnew : h.flags.newdata with
  | false =>
    have hfile := hquiet hnew
    have hscript : h.hs.script = none := by
      rcases hopen with hstate | hstate | ⟨-, hscript⟩
      · cases hstate.symm.trans hfile
      · cases hstate.symm.trans hfile
      · exact hscript
    have hno : ¬ (h.flags.newdata = true ∧ h.hs.state = .noget) := by
      rw [hnew]
      exact fun hboth ↦ Bool.false_ne_true hboth.1
    rw [httpdAppcall, if_neg (by rw [hconnected]; decide), if_neg (by rw [hpoll]; decide),
      if_neg hno] at hr
    obtain ⟨hsame, hflags, hfile', hscript'⟩ := callCgi_file hfile hscript hr
    refine ⟨.inr ⟨hsame.trans hcalls, .inl hnew⟩, .inr ?_⟩
    rcases hflags with hflags | hflags
    · exact .inl ⟨hflags, .inr (.inr ⟨hfile', hscript'⟩)⟩
    · refine .inr ⟨hflags, ?_⟩
      rw [hfile']
      nofun
  | true =>
    obtain ⟨hnofile, htext⟩ := htakes hnew
    have hack' : h.flags.ackdata = false := by
      rw [← Bool.not_eq_true]
      exact fun ha ↦ hnofile (hack ha)
    rw [httpdAppcall, if_neg (by rw [hconnected]; decide), if_neg (by rw [hpoll]; decide)] at hr
    rcases hopen with hnoget | hfunc | ⟨hfile, -⟩
    · rw [if_pos ⟨hnew, hnoget⟩] at hr
      rw [entry, if_pos ⟨hnew, hnoget⟩] at htext
      dsimp only at hr htext
      split at hr
      · obtain ⟨-, rfl⟩ := Prod.mk.inj (Option.some.inj hr)
        exact hrefused hcalls rfl
      next hmethod =>
        rw [if_neg hmethod] at htext
        generalize hpage : openPage _ _ h = opened at hr htext
        have hopened : opened.2.calls = h.calls ∧ opened.2.flags = h.flags ∧
            opened.2.hs = h.hs := by
          rw [← hpage, openPage]
          dsimp only
          split_ifs
          all_goals exact ⟨rfl, rfl, rfl⟩
        obtain ⟨page, h₁⟩ := opened
        obtain ⟨hcalls₁, hflags₁, hhs₁⟩ := hopened
        obtain ⟨⟨appdata, h₂⟩, hserve, hr⟩ := Option.bind_eq_some_iff.mp hr
        obtain ⟨hfile₂, htext₂⟩ := htext (_, _, h₂) (by rw [hserve]; rfl)
        obtain ⟨hcalls₂, houtcome⟩ := serve_servedFrom hserve
        have hnone : h₂.calls = [] := (hcalls₂.trans hcalls₁).trans hcalls
        rcases houtcome with ⟨hflags₂, ⟨page', hfresh⟩ | hfunc⟩ | ⟨habort₂, hstate₂⟩
        · rw [hfresh] at hfile₂
          exact absurd rfl hfile₂
        · exact hupload _ _ h₂ hfunc hnone (hflags₂.trans hflags₁) hack'
            (htext₂ hfunc) hr
        · have hstate : h₂.hs.state ≠ .func := by
            rw [hstate₂]
            change h₁.hs.state ≠ .func
            change h₁.hs = h.hs at hhs₁
            rw [hhs₁, hnoget]
            decide
          obtain ⟨hsame, hflags, -⟩ := callCgi_quiet hstate (by rw [habort₂]) hr
          exact hrefused (hsame.trans hnone) (hflags.trans habort₂)
    · have hno : ¬ (h.flags.newdata = true ∧ h.hs.state = .noget) := by
        rw [hfunc]
        exact fun hboth ↦ absurd hboth.2 (by decide)
      rw [if_neg hno] at hr
      rw [entry, if_neg hno] at htext
      exact hupload 0 p h hfunc hcalls rfl hack'
        ((htext (0, p, h) rfl).2 hfunc) hr
    · exact absurd hfile hnofile

/-- A call that neither brings an acknowledgement nor data. -/
theorem httpdAppcall_silent (hconnected : h.flags.connected = false) (hpoll : h.flags.poll = false)
    (hack : h.flags.ackdata = false) (hnew : h.flags.newdata = false) (hfunc : h.hs.state ≠ .func)
    (hr : httpdAppcall fs n len u p h = some (a, h')) :
    h'.calls = h.calls ∧ h'.flags = h.flags ∧ h'.hs = h.hs := by
  have hno : ¬ (h.flags.newdata = true ∧ h.hs.state = .noget) := by
    rw [hnew]
    exact fun hboth ↦ Bool.false_ne_true hboth.1
  rw [httpdAppcall, if_neg (by rw [hconnected]; decide), if_neg (by rw [hpoll]; decide),
    if_neg hno] at hr
  exact callCgi_quiet hfunc hack hr

theorem httpdAppcall_polled (hconnected : h.flags.connected = false) (hpoll : h.flags.poll = true)
    (hr : httpdAppcall fs n len u p h = some (a, h')) :
    h'.calls = h.calls ∧ (h'.flags = h.flags ∨ h'.flags = { abort := true }) ∧
      h'.hs.state = h.hs.state ∧ h'.hs.script = h.hs.script := by
  rw [httpdAppcall, if_neg (by rw [hconnected]; decide), if_pos hpoll] at hr
  obtain ⟨-, rfl⟩ := Prod.mk.inj (Option.some.inj hr)
  split
  · exact ⟨rfl, .inr rfl, rfl, rfl⟩
  · exact ⟨rfl, .inl rfl, rfl, rfl⟩

theorem httpdAppcall_connected (hconnected : h.flags.connected = true)
    (hr : httpdAppcall fs n len u p h = some (a, h')) :
    h'.calls = h.calls ∧ h'.flags = h.flags ∧ h'.hs.state = .noget := by
  rw [httpdAppcall, if_pos hconnected] at hr
  obtain ⟨-, rfl⟩ := Prod.mk.inj (Option.some.inj hr)
  exact ⟨rfl, rfl, rfl⟩

end

/-- The connection, what `upgrade_cgi` has got and what is acknowledged, state by state. -/
inductive Tracks (P : Peer) (c : Conn) (hs : Hs) : List UInt8 → ℕ → Bool → Prop
  | opening (state : c.state = .synRcvd) (rcvNxt : c.rcvNxt = P.first) : Tracks P c hs [] 0 false
  | taking {acked : ℕ} (state : c.state = .established)
    (rcvNxt : c.rcvNxt.toNat = (P.first.toNat + acked) % 4294967296)
    (le : acked ≤ P.stream.length) (app : AppOpen hs) :
    Tracks P c hs (P.stream.take acked) acked false
  | last {got : List UInt8} {ended : Bool} (state : c.state = .lastAck)
    (rcvNxt : c.rcvNxt.toNat = (P.first.toNat + (P.stream.length + 1)) % 4294967296)
    (inOrder : got <+: P.stream) (exactly : ended = false → got = P.stream) :
    Tracks P c hs got (P.stream.length + 1) ended
  | closing {got : List UInt8} {acked : ℕ} (state : Closing c.state) (func : hs.state ≠ .func)
    (inOrder : got <+: P.stream) : Tracks P c hs got acked true
  | gone {got : List UInt8} {acked : ℕ} {ended : Bool} (state : ¬ Live c)
    (delivered : Delivered P got acked ended) : Tracks P c hs got acked ended

section

variable {P : Peer} {c c' : Conn} {hs hs' : Hs} {got : List UInt8} {acked m : ℕ} {ended : Bool}

theorem Tracks.delivered (h : Tracks P c hs got acked ended) : Delivered P got acked ended := by
  cases h with
  | opening => exact ⟨List.nil_prefix, fun _ ↦ List.take_zero.symm⟩
  | taking => exact ⟨List.take_prefix _ _, fun _ ↦ rfl⟩
  | last hstate hrcv horder hexact =>
    refine ⟨horder, ?_⟩
    intro hgoing
    rw [hexact hgoing, List.take_of_length_le (Nat.le_succ _)]
  | closing hstate hfunc horder => exact ⟨horder, nofun⟩
  | gone hstate hdelivered => exact hdelivered

theorem moved_eq (h : c'.rcvNxt.toNat = (c.rcvNxt.toNat + m) % 4294967296) (hm : m < 4294967296) :
    moved c c' = m := by
  have hlt := c.rcvNxt.toNat_lt
  rw [moved, h]
  omega

theorem moved_same (h : c'.rcvNxt = c.rcvNxt) : moved c c' = 0 := by
  apply moved_eq
  · rw [h, Nat.add_zero, Nat.mod_eq_of_lt c.rcvNxt.toNat_lt]
  · decide

theorem Tracks.quiet (h : Tracks P c hs got acked ended) (hmoves : Moves 0 c c') :
    Tracks P c' hs got acked ended := by
  have hrcv := hmoves.rcvNxt_eq
  cases h with
  | opening hstate hfirst => exact .opening (hmoves.state.trans hstate) (hrcv.trans hfirst)
  | taking hstate hnext hle happ =>
    rw [← hrcv] at hnext
    exact .taking (hmoves.state.trans hstate) hnext hle happ
  | last hstate hnext horder hexact =>
    rw [← hrcv] at hnext
    exact .last (hmoves.state.trans hstate) hnext horder hexact
  | closing hstate hfunc horder =>
    rw [← hmoves.state] at hstate
    exact .closing hstate hfunc horder
  | gone hstate hdelivered =>
    rw [Live, ← hmoves.state] at hstate
    exact .gone hstate hdelivered

theorem Tracks.of_synRcvd (h : Tracks P c hs got acked ended) (hstate : c.state = .synRcvd) :
    got = [] ∧ acked = 0 ∧ ended = false ∧ c.rcvNxt = P.first := by
  cases h with
  | opening _ hfirst => exact ⟨rfl, rfl, rfl, hfirst⟩
  | taking hest => cases hest.symm.trans hstate
  | last hlast => cases hlast.symm.trans hstate
  | closing hclosing => exact absurd hstate hclosing.ne.1
  | gone hgone =>
    rw [Live, hstate] at hgone
    exact absurd (by decide) hgone

theorem Tracks.of_established (h : Tracks P c hs got acked ended) (hstate : c.state = .established) :
    got = P.stream.take acked ∧ ended = false ∧
      c.rcvNxt.toNat = (P.first.toNat + acked) % 4294967296 ∧ acked ≤ P.stream.length ∧
      AppOpen hs := by
  cases h with
  | opening hsyn => cases hsyn.symm.trans hstate
  | taking _ hrcv hle happ => exact ⟨rfl, rfl, hrcv, hle, happ⟩
  | last hlast => cases hlast.symm.trans hstate
  | closing hclosing => exact absurd hstate hclosing.ne.2.1
  | gone hgone =>
    rw [Live, hstate] at hgone
    exact absurd (by decide) hgone

theorem Tracks.of_lastAck (h : Tracks P c hs got acked ended) (hstate : c.state = .lastAck) :
    acked = P.stream.length + 1 ∧ c.rcvNxt.toNat = (P.first.toNat + acked) % 4294967296 := by
  cases h with
  | opening hsyn => cases hsyn.symm.trans hstate
  | taking hest => cases hest.symm.trans hstate
  | last _ hrcv => exact ⟨rfl, hrcv⟩
  | closing hclosing => exact absurd hstate hclosing.ne.2.2.1
  | gone hgone =>
    rw [Live, hstate] at hgone
    exact absurd (by decide) hgone

theorem Tracks.of_closing (h : Tracks P c hs got acked ended) (hclosing : Closing c.state) :
    ended = true ∧ hs.state ≠ .func ∧ got <+: P.stream := by
  obtain ⟨hsyn, hest, hlast, hlive⟩ := hclosing.ne
  cases h with
  | opening hstate => exact absurd hstate hsyn
  | taking hstate => exact absurd hstate hest
  | last hstate => exact absurd hstate hlast
  | closing hstate hfunc horder => exact ⟨rfl, hfunc, horder⟩
  | gone hstate => exact absurd hlive hstate

/-- A step of a connection that the application has closed. -/
theorem Tracks.leaves (h : Tracks P c hs got acked ended) (hclosing : Closing c.state)
    (hc : Closing c'.state ∨ ¬ Live c') (m : ℕ) : Tracks P c' hs got (acked + m) ended := by
  obtain ⟨rfl, hfunc, horder⟩ := h.of_closing hclosing
  rcases hc with hc | hc
  · exact .closing hc hfunc horder
  · exact .gone hc ⟨horder, nofun⟩

theorem Delivered.closed (h : Delivered P got acked ended) (hclosed : c'.state = .closed) (b : Bool) :
    Tracks P c' hs' got acked (ended || b) := by
  refine .gone (fun hlive ↦ hlive.1 hclosed) ⟨h.inOrder, ?_⟩
  intro hgoing
  rw [Bool.or_eq_false_iff] at hgoing
  exact h.exactly hgoing.1

end

section

variable {t : Stack}

/-- What the label `appsend` makes of the flags that the application leaves. -/
theorem appsend_connr (t : Stack) : t.appsend.connr.rcvNxt = t.connr.rcvNxt ∧
    t.appsend.connr.state =
      if t.flags.abort then .closed else if t.flags.close then .finWait1 else t.connr.state := by
  have hsend : ∀ c flags, (Stack.tcpSendNodata { t.setConn c with slen := 0 } flags).connr = c :=
    fun c flags ↦ (tcpSendNodata_connr _ _).trans (setConn_connr t c)
  unfold appsend
  dsimp only
  split
  · rw [hsend]
    exact ⟨rfl, rfl⟩
  split
  · rw [hsend]
    exact ⟨rfl, rfl⟩
  split
  · have hset : ∀ c n, Stack.connr { t.setConn c with slen := n } = c := fun c _ ↦ setConn_connr t c
    rw [apprexmit_connr, hset]
    dsimp only
    split <;> exact ⟨rfl, rfl⟩
  · rw [apprexmit_connr, setConn_connr]
    exact ⟨rfl, rfl⟩

theorem finack_connr (t : Stack) :
    (t.resume .finack).connr.rcvNxt = t.connr.rcvNxt ∧ (t.resume .finack).connr.state = .lastAck := by
  unfold resume
  rw [tcpSendNodata_connr, setConn_connr]
  exact ⟨rfl, rfl⟩

end

section

variable {fs : Fs} {n k : ℕ} {srv : Server} {s t : Stack} {u : ℕ → Uninit} {a : List UInt8} {h h' : App}

theorem uipAppcall_eq {c : Conn} {p : Packet} (hr : uipAppcall fs n c u p h = some (a, h')) :
    c.lport = 80 ∧ httpdAppcall fs (n + 1) c.len u p h = some (a, h') ∨
      c.lport ≠ 80 ∧ h' = uipAbort h := by
  unfold uipAppcall at hr
  split at hr
  next hport => exact .inl ⟨hport, hr⟩
  next hport => exact .inr ⟨hport, (Prod.mk.inj (Option.some.inj hr)).2.symm⟩

/-- A call with neither data nor an acknowledgement, where no upload is under way. -/
theorem uipAppcall_silent {c : Conn} {p : Packet} (hconnected : h.flags.connected = false)
    (hpoll : h.flags.poll = false) (hack : h.flags.ackdata = false) (hnew : h.flags.newdata = false)
    (hfunc : h.hs.state ≠ .func) (hr : uipAppcall fs n c u p h = some (a, h')) :
    h'.calls = h.calls ∧ h'.hs = h.hs ∧ (c.lport = 80 → h'.flags = h.flags) := by
  rcases uipAppcall_eq hr with ⟨hport, hr⟩ | ⟨hport, rfl⟩
  · obtain ⟨hcalls, hflags, hhs⟩ := httpdAppcall_silent hconnected hpoll hack hnew hfunc hr
    exact ⟨hcalls, hhs, fun _ ↦ hflags⟩
  · exact ⟨rfl, rfl, fun h80 ↦ absurd h80 hport⟩

theorem taken_nil (hcalls : h.calls = [] ∨ t.len.toNat = 0) : taken k (some (t, h)) = [] := by
  rw [taken]
  split
  · rcases hcalls with hcalls | hlen
    · rw [hcalls]
      rfl
    · rw [hlen]
      exact List.flatMap_eq_nil_iff.mpr fun _ _ ↦ rfl
  · rfl

theorem taken_once (hconn : t.conn = k) (hcalls : h.calls.length = 1) :
    taken k (some (t, h)) = bytes t.buf t.appdata t.len.toNat := by
  obtain ⟨range, hrange⟩ := List.length_eq_one_iff.mp hcalls
  rw [taken, if_pos hconn, hrange]
  exact List.append_nil _

theorem endsIn_eq (hconn : t.conn = k) : endsIn k (some (t, h)) = decide (h.flags ≠ t.flags) := by
  rw [endsIn, hconn, decide_eq_true rfl, Bool.true_and]

end

section

variable {fs : Fs} {n k : ℕ} {P : Peer} {srv : Server} {s t : Stack} {u : ℕ → Uninit} {a : List UInt8}
  {h' : App} {r : Server × Option Stack} {next : Resume} {got : List UInt8} {acked : ℕ} {ended : Bool}

theorem finish_called (hconn : t.conn = k) (hr : finish fs n srv u (.call t next) = some r) :
    ∃ a h', uipAppcall fs n t.connr u (packetOf t) (appOf srv k t.flags) = some (a, h') ∧
      calledWith fs n srv u (.call t next) = some (t, h') ∧
      r.1.stack.conns k = ((handBack t a h').resume next).connr ∧ r.1.hs k = h'.hs := by
  obtain ⟨⟨a, h'⟩, happ, rfl⟩ := Option.map_eq_some_iff.mp hr
  have hcalled : calledWith fs n srv u (.call t next) = some (t, h') := by
    rw [calledWith]
    exact Option.map_eq_some_iff.mpr ⟨(a, h'), happ, rfl⟩
  subst hconn
  have hresume := (resume_touches (handBack t a h') next).conn
  refine ⟨a, h', happ, hcalled, ?_, if_pos rfl⟩
  rw [connr, hresume]
  rfl

/-- Behind a call on an open connection. -/
theorem tracks_appsend (hstate : t.connr.state = .established)
    (hrcv : t.connr.rcvNxt.toNat = (P.first.toNat + acked) % 4294967296)
    (hle : acked ≤ P.stream.length) (habort : t.flags.abort = false) (hclose : t.flags.close = false)
    (houtcome : h'.flags = { abort := true } ∨ h'.flags = t.flags ∧ AppOpen h'.hs ∨
      h'.flags = { close := true } ∧ h'.hs.state ≠ .func)
    (hgot : Delivered P got acked (decide (h'.flags ≠ t.flags))) :
    Tracks P (handBack t a h').appsend.connr h'.hs got acked (decide (h'.flags ≠ t.flags)) := by
  obtain ⟨hrcv', hstate'⟩ := appsend_connr (handBack t a h')
  change _ = if h'.flags.abort then _ else if h'.flags.close then _ else t.connr.state at hstate'
  rcases houtcome with hflags | ⟨hflags, hopen⟩ | ⟨hflags, hfunc⟩
  · rw [hflags] at hstate'
    exact .gone (fun hlive ↦ hlive.1 hstate') hgot
  · rw [hflags, habort, hclose] at hstate'
    have hgoing : decide (h'.flags ≠ t.flags) = false := by
      rw [hflags]
      exact decide_eq_false fun hne ↦ hne rfl
    rw [hgoing] at hgot ⊢
    rw [hgot.exactly rfl]
    change _ = t.connr.rcvNxt at hrcv'
    rw [← hrcv'] at hrcv
    exact .taking (hstate'.trans hstate) hrcv hle hopen
  · have hended : decide (h'.flags ≠ t.flags) = true := by
      refine decide_eq_true ?_
      intro hsame
      rw [← hsame, hflags] at hclose
      cases hclose
    rw [hflags] at hstate'
    rw [hended]
    exact .closing (.inl hstate') hfunc hgot.inOrder

theorem Tracks.opens (h : Tracks P s.connr (srv.hs k) got acked ended)
    (hstate : s.connr.state = .synRcvd)
    (ht : t.connr.state = .established ∧ t.connr.rcvNxt = s.connr.rcvNxt)
    (hflags : t.flags = { connected := true })
    (hr : uipAppcall fs n t.connr u (packetOf t) (appOf srv k t.flags) = some (a, h')) :
    Tracks P (handBack t a h').appsend.connr h'.hs (got ++ taken k (some (t, h'))) acked
      (ended || decide (h'.flags ≠ t.flags)) := by
  obtain ⟨rfl, rfl, rfl, hfirst⟩ := h.of_synRcvd hstate
  have hcalls : h'.calls = [] ∧ (h'.flags = { abort := true } ∨
      h'.flags = t.flags ∧ AppOpen h'.hs) := by
    rcases uipAppcall_eq hr with ⟨-, hr⟩ | ⟨-, rfl⟩
    · obtain ⟨hcalls, hsame, hnoget⟩ := httpdAppcall_connected (by rw [appOf, hflags]) hr
      exact ⟨hcalls, .inr ⟨hsame, .inl hnoget⟩⟩
    · exact ⟨rfl, .inl rfl⟩
  rw [taken_nil (.inl hcalls.1), Bool.false_or]
  apply tracks_appsend ht.1
  · rw [ht.2, hfirst, Nat.add_zero, Nat.mod_eq_of_lt P.first.toNat_lt]
  · exact Nat.zero_le _
  · rw [hflags]
  · rw [hflags]
  · exact hcalls.2.imp_right .inl
  · exact ⟨List.nil_prefix, fun _ ↦ List.take_zero.symm⟩

/-- The data of a segment with the expected number are the next bytes of the stream. -/
theorem Genuine.expected (h : Genuine P acked s) (hdata : 0 < dataLen s ∨ s.hasFlag tcpFin = true)
    (hrcv : s.seqno.toNat = (P.first.toNat + acked) % 4294967296) :
    acked + dataLen s ≤ P.stream.length ∧
      bytes s.buf (uipLlhLen + 20 + s.tcpHlen) (dataLen s) =
        (P.stream.drop acked).take (dataLen s) ∧
      (s.hasFlag tcpFin = true → acked + dataLen s = P.stream.length) := by
  obtain ⟨off, -, hseq, hold, hnew, hle, hbytes, hfin⟩ := h.data hdata
  have hoff : off = acked := by
    rw [hrcv] at hseq
    omega
  rw [hoff] at hle hbytes hfin
  exact ⟨hle, hbytes, hfin⟩

theorem delivered_taken {d : ℕ} (hconn : t.conn = k)
    (hbytes : bytes t.buf t.appdata t.len.toNat = (P.stream.drop acked).take d)
    (hcalls : h'.calls.length = 1 ∨ h'.calls = [] ∧ (d = 0 ∨ h'.flags ≠ t.flags)) :
    Delivered P (P.stream.take acked ++ taken k (some (t, h'))) (acked + d)
      (decide (h'.flags ≠ t.flags)) := by
  rcases hcalls with hone | ⟨hnil, hnone⟩
  · rw [taken_once hconn hone, hbytes, ← List.take_add]
    exact ⟨List.take_prefix _ _, fun _ ↦ rfl⟩
  · rw [taken_nil (.inl hnil), List.append_nil]
    refine ⟨List.take_prefix _ _, ?_⟩
    intro hgoing
    rw [hnone.resolve_right (of_decide_eq_false hgoing), Nat.add_zero]

theorem packetOf_brings (h : Brings s t) :
    packetOf t = ⟨bytes s.buf (uipLlhLen + 40) (uipBufLen - (uipLlhLen + 40)), dataLen s⟩ := by
  rw [packetOf, h.buf, h.appdata, h.len]

theorem bytes_brings (h : Brings s t) (hoptions : 0 < dataLen s → s.tcpHlen = 20)
    (hnext : 0 < dataLen s → bytes s.buf (uipLlhLen + 20 + s.tcpHlen) (dataLen s) =
      (P.stream.drop acked).take (dataLen s)) :
    bytes t.buf t.appdata t.len.toNat = (P.stream.drop acked).take (dataLen s) := by
  rw [h.buf, h.appdata, h.len]
  rcases Nat.eq_zero_or_pos (dataLen s) with hzero | hpos
  · rw [hzero]
    rfl
  · rw [← hnext hpos, hoptions hpos]

theorem Tracks.data (h : Tracks P s.connr (srv.hs k) got acked ended) (hok : ConnOk s.connr (srv.hs k))
    (hgenuine : Genuine P acked s) (hoptions : Accepted s s.connr → s.tcpHlen = 20)
    (htakes : Accepted s s.connr → TakesData fs n u
      ⟨bytes s.buf (uipLlhLen + 40) (uipBufLen - (uipLlhLen + 40)), dataLen s⟩
      (appOf srv k { newdata := true, close := s.hasFlag tcpFin }))
    (hstate : s.connr.state = .established) (hmoves : Moves (dataLen s) s.connr t.connr)
    (hflags : t.flags = { newdata := t.flags.newdata, ackdata := t.flags.ackdata })
    (hevent : t.flags.newdata = false → t.flags.ackdata = true)
    (hack : t.flags.ackdata = true → s.connr.len ≠ 0) (hnofin : s.hasFlag tcpFin = false)
    (hbrings : Brings s t) (hconn : t.conn = k)
    (hr : uipAppcall fs n t.connr u (packetOf t) (appOf srv k t.flags) = some (a, h')) :
    Tracks P (handBack t a h').appsend.connr h'.hs (got ++ taken k (some (t, h')))
      (acked + dataLen s) (ended || decide (h'.flags ≠ t.flags)) := by
  obtain ⟨rfl, rfl, hrcv, hle, hopen⟩ := h.of_established hstate
  have hnext : 0 < dataLen s → acked + dataLen s ≤ P.stream.length ∧
      bytes s.buf (uipLlhLen + 20 + s.tcpHlen) (dataLen s) =
        (P.stream.drop acked).take (dataLen s) := by
    intro hpos
    obtain ⟨hle', hbytes, -⟩ := hgenuine.expected (.inl hpos)
      ((congrArg Seq.toNat (hbrings.seqno hpos)).trans hrcv)
    exact ⟨hle', hbytes⟩
  have haccepted : 0 < dataLen s → Accepted s s.connr := by
    intro hpos
    refine ⟨hstate, hpos, hbrings.seqno hpos, ?_⟩
    rw [hnofin]
    nofun
  have hfile : t.flags.ackdata = true → (srv.hs k).state = .file := by
    intro ha
    obtain ⟨-, hfunc, hnoget, -⟩ := hok.sending hstate (hack ha)
    rcases hopen with hno | hno | hfile
    · exact absurd hno hnoget
    · exact absurd hno hfunc
    · exact hfile.1
  have htakes' : t.flags.newdata = true → TakesData fs n u (packetOf t) (appOf srv k t.flags) := by
    intro hnew
    have hpos := of_decide_eq_true (hbrings.newdata.symm.trans hnew)
    have hall := htakes (haccepted hpos)
    rw [hnofin] at hall
    have hnoack : t.flags.ackdata = false := by
      rw [← Bool.not_eq_true]
      exact fun ha ↦ hall.1 (hfile ha)
    rw [hflags, hnew, hnoack, packetOf_brings hbrings]
    exact hall
  have hanswer : Answered (appOf srv k t.flags) h' := by
    rcases uipAppcall_eq hr with ⟨-, hr⟩ | ⟨-, rfl⟩
    · apply httpdAppcall_answered rfl _ _ _ hopen hfile (fun hnew ↦ hfile (hevent hnew)) htakes' hr
      · exact congrArg UipFlags.connected hflags
      · exact congrArg UipFlags.poll hflags
      · exact congrArg UipFlags.abort hflags
    · refine ⟨.inr ⟨rfl, .inr ?_⟩, .inl rfl⟩
      intro hsame
      change _ = t.flags at hsame
      rw [← hsame] at hflags
      cases hflags
  rw [Bool.false_or]
  apply tracks_appsend (hmoves.state.trans hstate)
  · rw [hmoves.rcvNxt, hrcv]
    omega
  · rcases Nat.eq_zero_or_pos (dataLen s) with hzero | hpos
    · rw [hzero]
      exact hle
    · exact (hnext hpos).1
  · rw [hflags]
  · rw [hflags]
  · exact hanswer.outcome
  · apply delivered_taken hconn
      (bytes_brings hbrings (fun hpos ↦ hoptions (haccepted hpos)) fun hpos ↦ (hnext hpos).2)
    refine hanswer.calls.imp_right (And.imp_right (Or.imp_left ?_))
    intro hnew
    have hnone := of_decide_eq_false (hbrings.newdata.symm.trans hnew)
    exact Nat.eq_zero_of_not_pos hnone

theorem Tracks.fin (h : Tracks P s.connr (srv.hs k) got acked ended) (hgenuine : Genuine P acked s)
    (horder : dataLen s = 0 → s.seqno = s.connr.rcvNxt)
    (hoptions : Accepted s s.connr → s.tcpHlen = 20)
    (htakes : Accepted s s.connr → TakesData fs n u
      ⟨bytes s.buf (uipLlhLen + 40) (uipBufLen - (uipLlhLen + 40)), dataLen s⟩
      (appOf srv k { newdata := true, close := s.hasFlag tcpFin }))
    (hstate : s.connr.state = .established) (hlen : s.connr.len = 0)
    (hmoves : Moves (dataLen s + 1) s.connr t.connr)
    (hflags : t.flags = { close := true, newdata := t.flags.newdata })
    (hfin : s.hasFlag tcpFin = true) (hbrings : Brings s t) (hconn : t.conn = k)
    (hr : uipAppcall fs n t.connr u (packetOf t) (appOf srv k t.flags) = some (a, h')) :
    Tracks P ((handBack t a h').resume .finack).connr h'.hs (got ++ taken k (some (t, h')))
      (acked + (dataLen s + 1)) (ended || decide (h'.flags ≠ t.flags)) := by
  obtain ⟨rfl, rfl, hrcv, hle, hopen⟩ := h.of_established hstate
  have hseq : s.seqno = s.connr.rcvNxt :=
    (Nat.eq_zero_or_pos (dataLen s)).elim horder hbrings.seqno
  obtain ⟨-, hnext, hend⟩ := hgenuine.expected (.inr hfin) ((congrArg Seq.toNat hseq).trans hrcv)
  have haccepted : 0 < dataLen s → Accepted s s.connr := fun hpos ↦ ⟨hstate, hpos, hseq, fun _ ↦ hlen⟩
  have hcalls : h'.calls.length = 1 ∨ h'.calls = [] ∧ (dataLen s = 0 ∨ h'.flags ≠ t.flags) ∨
      dataLen s = 0 := by
    rcases Nat.eq_zero_or_pos (dataLen s) with hzero | hpos
    · exact .inr (.inr hzero)
    have hnew : t.flags.newdata = true := hbrings.newdata.trans (decide_eq_true hpos)
    rcases uipAppcall_eq hr with ⟨-, hr⟩ | ⟨-, rfl⟩
    · have htakes' : TakesData fs n u (packetOf t) (appOf srv k t.flags) := by
        have hall := htakes (haccepted hpos)
        rw [hfin] at hall
        rw [hflags, hnew, packetOf_brings hbrings]
        exact hall
      have hanswer : Answered (appOf srv k t.flags) h' := by
        apply httpdAppcall_answered rfl _ _ _ hopen _ _ (fun _ ↦ htakes') hr
        · exact congrArg UipFlags.connected hflags
        · exact congrArg UipFlags.poll hflags
        · exact congrArg UipFlags.abort hflags
        · intro hack
          rw [appOf, hflags] at hack
          cases hack
        · intro hno
          cases hno.symm.trans hnew
      refine hanswer.calls.imp_right fun hnone ↦ .inl ⟨hnone.1, .inr ?_⟩
      refine hnone.2.resolve_left ?_
      intro hno
      cases hno.symm.trans hnew
    · refine .inr (.inl ⟨rfl, .inr ?_⟩)
      intro hsame
      change _ = t.flags at hsame
      rw [← hsame] at hflags
      cases hflags
  have hdelivered : Delivered P (P.stream.take acked ++ taken k (some (t, h'))) (acked + dataLen s)
      (decide (h'.flags ≠ t.flags)) := by
    have hbytes := bytes_brings hbrings (fun hpos ↦ hoptions (haccepted hpos)) fun _ ↦ hnext
    rcases hcalls with hone | hnone | hzero
    · exact delivered_taken hconn hbytes (.inl hone)
    · exact delivered_taken hconn hbytes (.inr hnone)
    · rw [taken_nil (.inr (hbrings.len.trans hzero)), List.append_nil, hzero]
      exact ⟨List.take_prefix _ _, fun _ ↦ rfl⟩
  obtain ⟨hrcv', hlast⟩ := finack_connr (handBack t a h')
  have hsum := hend hfin
  rw [hsum] at hdelivered
  rw [Bool.false_or, ← Nat.add_assoc, hsum]
  refine .last hlast ?_ hdelivered.inOrder ?_
  · rw [hrcv']
    change t.connr.rcvNxt.toNat = _
    rw [hmoves.rcvNxt, hrcv, ← hsum]
    omega
  · intro hgoing
    rw [hdelivered.exactly hgoing, List.take_length]

theorem Tracks.polls (h : Tracks P s.connr (srv.hs k) got acked ended)
    (hstate : s.connr.state = .established) (hmoves : Moves 0 s.connr t.connr)
    (hflags : t.flags = { poll := true })
    (hr : uipAppcall fs n t.connr u (packetOf t) (appOf srv k t.flags) = some (a, h')) :
    Tracks P (handBack t a h').appsend.connr h'.hs (got ++ taken k (some (t, h'))) acked
      (ended || decide (h'.flags ≠ t.flags)) := by
  obtain ⟨rfl, rfl, hrcv, hle, hopen⟩ := h.of_established hstate
  have hcalls : h'.calls = [] ∧ (h'.flags = { abort := true } ∨
      h'.flags = t.flags ∧ AppOpen h'.hs) := by
    rcases uipAppcall_eq hr with ⟨-, hr⟩ | ⟨-, rfl⟩
    · obtain ⟨hcalls, hsame, hhs, hscript⟩ := httpdAppcall_polled (by rw [appOf, hflags])
        (by rw [appOf, hflags]) hr
      refine ⟨hcalls, hsame.symm.imp_right fun hsame ↦ ⟨hsame, ?_⟩⟩
      rw [AppOpen, hhs, hscript]
      exact hopen
    · exact ⟨rfl, .inl rfl⟩
  rw [taken_nil (.inl hcalls.1), List.append_nil, Bool.false_or]
  apply tracks_appsend (hmoves.state.trans hstate)
  · rw [hmoves.rcvNxt_eq, hrcv]
  · exact hle
  · rw [hflags]
  · rw [hflags]
  · exact hcalls.2.imp_right .inl
  · exact ⟨List.take_prefix _ _, fun _ ↦ rfl⟩

theorem Tracks.rexmit (h : Tracks P s.connr (srv.hs k) got acked ended)
    (hok : ConnOk s.connr (srv.hs k)) (hstate : s.connr.state = .established)
    (hlen : s.connr.len ≠ 0) (hmoves : Moves 0 s.connr t.connr)
    (hflags : t.flags = { rexmit := true })
    (hr : uipAppcall fs n t.connr u (packetOf t) (appOf srv k t.flags) = some (a, h')) :
    Tracks P ((handBack t a h').resume .apprexmit).connr h'.hs (got ++ taken k (some (t, h'))) acked
      (ended || decide (h'.flags ≠ t.flags)) := by
  obtain ⟨hport, hfunc, -⟩ := hok.sending hstate hlen
  obtain ⟨hcalls, hhs, hsame⟩ := uipAppcall_silent (by rw [appOf, hflags]) (by rw [appOf, hflags])
    (by rw [appOf, hflags]) (by rw [appOf, hflags]) hfunc hr
  have hsame' : h'.flags = t.flags := hsame (hmoves.lport.trans hport)
  have hgoing : decide (h'.flags ≠ t.flags) = false := decide_eq_false fun hne ↦ hne hsame'
  have hquiet := h.quiet hmoves
  rw [taken_nil (.inl hcalls), List.append_nil, hgoing, Bool.or_false, hhs, resume, apprexmit_connr]
  exact hquiet

theorem Tracks.closes (h : Tracks P s.connr (srv.hs k) got acked ended)
    (hclosing : Closing s.connr.state) (ht : Closing t.connr.state ∨ ¬ Live t.connr)
    (hflags : t.flags = { close := true }) (m : ℕ)
    (hr : uipAppcall fs n t.connr u (packetOf t) (appOf srv k t.flags) = some (a, h')) :
    Tracks P ((handBack t a h').resume .sendAck).connr h'.hs (got ++ taken k (some (t, h')))
      (acked + m) (ended || decide (h'.flags ≠ t.flags)) := by
  obtain ⟨rfl, hfunc, -⟩ := h.of_closing hclosing
  obtain ⟨hcalls, hhs, -⟩ := uipAppcall_silent (by rw [appOf, hflags]) (by rw [appOf, hflags])
    (by rw [appOf, hflags]) (by rw [appOf, hflags]) hfunc hr
  have hleaves := h.leaves hclosing ht m
  rw [taken_nil (.inl hcalls), List.append_nil, Bool.true_or, hhs, resume, tcpSendAck,
    tcpSendNodata_connr]
  exact hleaves

end

/-- The connection behind an event, with what that adds to the run. -/
def Follows (P : Peer) (k : ℕ) (srv r : Server) (called : Option (Stack × App)) (got : List UInt8)
    (acked : ℕ) (ended : Bool) : Prop :=
  Tracks P (r.stack.conns k) (r.hs k) (got ++ taken k called)
    (acked + moved (srv.stack.conns k) (r.stack.conns k)) (ended || endsIn k called)

section

variable {fs : Fs} {n k : ℕ} {P : Peer} {srv : Server} {s t : Stack} {b : Before} {u : ℕ → Uninit}
  {r : Server × Option Stack} {next : Resume} {got : List UInt8} {acked : ℕ} {ended : Bool}

theorem resume_rcvNxt (t : Stack) (next : Resume) :
    (t.resume next).connr.rcvNxt = t.connr.rcvNxt := by
  cases next with
  | appsend => exact (appsend_connr t).1
  | apprexmit => exact congrArg Conn.rcvNxt (apprexmit_connr t)
  | drop => rfl
  | finack => exact (finack_connr t).1
  | sendAck => exact congrArg Conn.rcvNxt (tcpSendNodata_connr t _)
  | sendRst => exact congrArg Conn.rcvNxt (tcpSendNodata_connr t _)

theorem follows_done (hconnr : srv.stack.conns k = s.connr) (hconn : t.conn = k)
    (hr : finish fs n srv u (.done t) = some r)
    (h : Tracks P t.connr (srv.hs k) got (acked + moved s.connr t.connr) ended) :
    Follows P k srv r.1 (calledWith fs n srv u (.done t)) got acked ended := by
  obtain rfl := Option.some.inj hr
  have hconnr' : t.conns k = t.connr := by rw [connr, hconn]
  rw [Follows, calledWith, taken, endsIn, List.append_nil, Bool.or_false, hconnr]
  change Tracks P (t.conns k) (srv.hs k) got (acked + moved s.connr (t.conns k)) ended
  rw [hconnr']
  exact h

theorem follows_call (hconnr : srv.stack.conns k = s.connr) (hconn : t.conn = k)
    (hr : finish fs n srv u (.call t next) = some r)
    (h : ∀ a h', uipAppcall fs n t.connr u (packetOf t) (appOf srv k t.flags) = some (a, h') →
      Tracks P ((handBack t a h').resume next).connr h'.hs (got ++ taken k (some (t, h')))
        (acked + moved s.connr t.connr) (ended || decide (h'.flags ≠ t.flags))) :
    Follows P k srv r.1 (calledWith fs n srv u (.call t next)) got acked ended := by
  obtain ⟨a, h', happ, hcalled, hconns, hhs⟩ := finish_called hconn hr
  have hmoved : moved s.connr ((handBack t a h').resume next).connr = moved s.connr t.connr := by
    rw [moved, resume_rcvNxt]
    rfl
  rw [Follows, hcalled, hconns, hhs, hconnr, hmoved, endsIn_eq hconn]
  exact h a h' happ

/-- The connection is closed before the call, in which nothing is taken. -/
theorem follows_closed (hconnr : srv.stack.conns k = s.connr) (hconn : s.conn = k)
    (htouches : Touches (fun c c' ↦ c'.state = .closed ∧ c'.rcvNxt = c.rcvNxt) s t)
    (hnext : next = .drop ∨ next = .sendRst) (hgot : Delivered P got acked ended)
    (hr : finish fs n srv u (.call t next) = some r)
    (htaken : ∀ a h', uipAppcall fs n t.connr u (packetOf t) (appOf srv k t.flags) = some (a, h') →
      h'.calls = [] ∨ t.len.toNat = 0) :
    Follows P k srv r.1 (calledWith fs n srv u (.call t next)) got acked ended := by
  apply follows_call hconnr (htouches.conn.trans hconn) hr
  intro a h' happ
  rw [taken_nil (htaken a h' happ), List.append_nil, moved_same htouches.rel.2, Nat.add_zero]
  apply hgot.closed
  rcases hnext with rfl | rfl
  · exact htouches.rel.1
  · rw [resume, tcpSendNodata_connr]
    exact htouches.rel.1

theorem follows_quiet (hconnr : srv.stack.conns k = s.connr) (hconn : s.conn = k)
    (htouches : Touches (Moves 0) s t) (h : Tracks P s.connr (srv.hs k) got acked ended)
    (hr : finish fs n srv u (.done t) = some r) :
    Follows P k srv r.1 (calledWith fs n srv u (.done t)) got acked ended := by
  apply follows_done hconnr (htouches.conn.trans hconn) hr
  rw [moved_same htouches.rel.rcvNxt_eq]
  exact h.quiet htouches.rel

theorem ticks_follows (hb : Ticks s b) (hconnr : srv.stack.conns k = s.connr) (hconn : s.conn = k)
    (h : Tracks P s.connr (srv.hs k) got acked ended) (hok : ConnOk s.connr (srv.hs k))
    (hr : finish fs n srv u b = some r) :
    Follows P k srv r.1 (calledWith fs n srv u b) got acked ended := by
  cases hb with
  | quiet htouches => exact follows_quiet hconnr hconn htouches h hr
  | ends hclosing htouches =>
    exact follows_done hconnr (htouches.conn.trans hconn) hr (h.leaves hclosing htouches.rel _)
  | gives htouches hlen =>
    refine follows_closed hconnr hconn htouches (.inr rfl) h.delivered hr fun _ _ _ ↦ .inr ?_
    rw [hlen]
    rfl
  | rexmit hstate hlen htouches hflags =>
    apply follows_call hconnr (htouches.conn.trans hconn) hr
    intro a h' happ
    rw [moved_same htouches.rel.rcvNxt_eq]
    exact h.rexmit hok hstate hlen htouches.rel hflags happ
  | polls hstate htouches hflags =>
    apply follows_call hconnr (htouches.conn.trans hconn) hr
    intro a h' happ
    rw [moved_same htouches.rel.rcvNxt_eq]
    exact h.polls hstate htouches.rel hflags happ

theorem heard_follows (hb : Heard s b) (hconnr : srv.stack.conns k = s.connr) (hconn : s.conn = k)
    (h : Tracks P s.connr (srv.hs k) got acked ended) (hok : ConnOk s.connr (srv.hs k))
    (hfits : Fitting fs n P acked k srv s u) (hr : finish fs n srv u b = some r) :
    Follows P k srv r.1 (calledWith fs n srv u b) got acked ended := by
  obtain ⟨hgenuine, -, -, horder, hoptions, htakes⟩ := hfits
  rw [hconnr] at horder hoptions htakes
  have hsmall : dataLen s < 65536 := (Nat.sub_le _ _).trans_lt (load16_lt s.buf 16)
  cases hb with
  | quiet htouches => exact follows_quiet hconnr hconn htouches h hr
  | ends hclosing htouches =>
    exact follows_done hconnr (htouches.conn.trans hconn) hr (h.leaves hclosing htouches.rel _)
  | opens hstate htouches hflags =>
    apply follows_call hconnr (htouches.conn.trans hconn) hr
    intro a h' happ
    rw [moved_same htouches.rel.2]
    exact h.opens hstate htouches.rel hflags happ
  | data hstate htouches hflags hevent hack hnofin hbrings =>
    have hconn' := htouches.conn.trans hconn
    apply follows_call hconnr hconn' hr
    intro a h' happ
    rw [moved_eq htouches.rel.rcvNxt (by omega)]
    exact h.data hok hgenuine hoptions htakes hstate htouches.rel hflags hevent hack hnofin hbrings
      hconn' happ
  | fin hstate hlen htouches hflags hfin hbrings =>
    have hconn' := htouches.conn.trans hconn
    apply follows_call hconnr hconn' hr
    intro a h' happ
    rw [moved_eq htouches.rel.rcvNxt (by omega)]
    exact h.fin hgenuine (horder hstate hlen hfin) hoptions htakes hstate hlen htouches.rel hflags
      hfin hbrings hconn' happ
  | closes hclosing htouches hflags =>
    apply follows_call hconnr (htouches.conn.trans hconn) hr
    intro a h' happ
    exact h.closes hclosing htouches.rel hflags _ happ
  | last hstate htouches hlen hseqno =>
    refine follows_closed hconnr hconn htouches (.inl rfl) h.delivered hr fun _ _ _ ↦ .inr ?_
    -- the FIN is acknowledged, and no data come behind it
    obtain ⟨hacked, hrcv⟩ := h.of_lastAck hstate
    rw [hlen]
    by_contra hne
    have hpos := Nat.pos_of_ne_zero hne
    obtain ⟨hle, -⟩ := hgenuine.expected (.inl hpos) ((congrArg Seq.toNat (hseqno hpos)).trans hrcv)
    omega

theorem frame_follows {buf : Mem} {len : UInt16} (hlive : Live (srv.stack.conns k))
    (hfor : IsFor srv k (.frame buf len u))
    (h : Tracks P (srv.stack.conns k) (srv.hs k) got acked ended)
    (hok : ConnOk (srv.stack.conns k) (srv.hs k)) (hfits : Fits fs n P acked k srv (.frame buf len u))
    (hr : Transmit.step fs n srv (.frame buf len u) = some r) :
    Follows P k srv r.1 (called fs n srv (.frame buf len u)) got acked ended := by
  obtain ⟨b, hb, hr⟩ := Option.bind_eq_some_iff.mp hr
  have hcalled : called fs n srv (.frame buf len u) = calledWith fs n srv u b := by
    rw [called, hb]
    rfl
  obtain ⟨hfunc, hcond⟩ := hfits hfor
  rw [hcalled]
  cases hrst : Stack.hasFlag { srv.stack with buf := buf, len := len } tcpRst with
  | true =>
    obtain ⟨t, ht, hflags, htouches⟩ := frame_reset hfor hrst
    obtain rfl := Option.some.inj (hb.symm.trans ht)
    refine follows_closed rfl rfl htouches (.inl rfl) h.delivered hr fun a h' happ ↦ .inl ?_
    exact (uipAppcall_silent (by rw [appOf, hflags]) (by rw [appOf, hflags])
      (by rw [appOf, hflags]) (by rw [appOf, hflags]) (hfunc hrst) happ).1
  | false =>
    have hcond := hcond hrst
    obtain ⟨b', hb', hheard⟩ := frame_heard hfor hrst hlive
      hcond.genuine.header hcond.handshake hcond.urgent
    obtain rfl := Option.some.inj (hb.symm.trans hb')
    have hgenuine : Genuine P acked { srv.stack with buf := buf, len := len, conn := k } :=
      ⟨hcond.genuine.header, hcond.genuine.data⟩
    have hoptions : Accepted { srv.stack with buf := buf, len := len, conn := k }
        (srv.stack.conns k) → Stack.tcpHlen { srv.stack with buf := buf, len := len } = 20 :=
      fun hacc ↦ hcond.options ⟨hacc.state, hacc.data, hacc.seqno, hacc.fin⟩
    exact heard_follows hheard rfl rfl h hok
      ⟨hgenuine, hcond.handshake, hcond.urgent, hcond.fin, hoptions,
        fun hacc ↦ hcond.takes ⟨hacc.state, hacc.data, hacc.seqno, hacc.fin⟩⟩ hr

end

section

variable {fs : Fs} {n k : ℕ} {P : Peer} {srv : Server} {e : Event} {x y : Upload}

/-- An event for another connection calls the application for that one, if at all. -/
theorem called_others {t : Stack} {h : App} (hnot : ¬ IsFor srv k e)
    (hcalled : called fs n srv e = some (t, h)) : t.conn ≠ k := by
  have hcall : ∀ (s : Stack) (b : Before) (u : ℕ → Uninit), Processed True s b →
      calledWith fs n srv u b = some (t, h) → t.conn = s.conn := by
    intro s b u hb hc
    cases hb with
    | done => cases hc
    | call htouches =>
      obtain ⟨⟨a, h'⟩, -, heq⟩ := Option.map_eq_some_iff.mp hc
      obtain ⟨rfl, -⟩ := Prod.mk.inj heq
      exact htouches.conn
  cases e with
  | frame buf len u =>
    obtain ⟨b, hb, hc⟩ := Option.bind_eq_some_iff.mp hcalled
    cases hseg : FrameIntegrity.segmentOf { srv.stack with buf := buf, len := len } with
    | none =>
      rcases FrameIntegrity.input_of_none hseg with hnone | ⟨t', ht, -⟩
      · cases hb.symm.trans hnone
      · obtain rfl := Option.some.inj (hb.symm.trans ht)
        cases hc
    | some j =>
      rw [FrameIntegrity.input_of_some hseg, Option.some_inj] at hb
      rw [hcall _ b u (hb ▸ found_processed _) hc]
      rintro rfl
      exact hnot hseg
  | timer j u =>
    rw [hcall _ _ u (timer_processed { srv.stack with conn := j }) hcalled]
    exact hnot

theorem others_follow (hlive : Live (srv.stack.conns k)) (hnot : ¬ IsFor srv k e)
    {got : List UInt8} {acked : ℕ} {ended : Bool} {r : Server × Option Stack}
    (h : Tracks P (srv.stack.conns k) (srv.hs k) got acked ended)
    (hr : Transmit.step fs n srv e = some r) :
    Follows P k srv r.1 (called fs n srv e) got acked ended := by
  obtain ⟨hconns, hhs⟩ := step_others hlive.1 hlive.2 hnot hr
  have hnone : taken k (called fs n srv e) = [] ∧ endsIn k (called fs n srv e) = false := by
    cases hc : called fs n srv e with
    | none => exact ⟨rfl, rfl⟩
    | some c =>
      obtain ⟨t, h⟩ := c
      have hne := called_others hnot hc
      rw [taken, if_neg hne, endsIn, decide_eq_false hne, Bool.false_and]
      exact ⟨rfl, rfl⟩
  rw [Follows, hnone.1, hnone.2, hconns, hhs, moved_same rfl, List.append_nil, Bool.or_false]
  exact h

/-- One event keeps the connection in step with what `upgrade_cgi` has got. -/
theorem Upload.step_tracks (hlive : Live (x.srv.stack.conns k))
    (h : Tracks P (x.srv.stack.conns k) (x.srv.hs k) x.got x.acked x.ended) (hinv : Inv x.srv)
    (hfits : Fits fs n P x.acked k x.srv e) (hr : x.step fs n k e = some y) :
    Tracks P (y.srv.stack.conns k) (y.srv.hs k) y.got y.acked y.ended ∧ Inv y.srv := by
  obtain ⟨r, hstep, rfl⟩ := Option.map_eq_some_iff.mp hr
  refine ⟨?_, step_inv hinv hstep⟩
  by_cases hfor : IsFor x.srv k e
  · cases e with
    | frame buf len u => exact frame_follows hlive hfor h (hinv k) hfits hstep
    | timer j u =>
      obtain rfl := hfor
      have hticks := timer_ticks (s := { x.srv.stack with conn := j }) hlive
      exact ticks_follows hticks rfl rfl h (hinv j) hstep
  · exact others_follow hlive hfor h hstep

theorem Upload.run_delivered (h : Tracks P (x.srv.stack.conns k) (x.srv.hs k) x.got x.acked x.ended)
    (hinv : Inv x.srv) (es : List Event)
    (hfits : ∀ y ∈ x.liveSteps fs n k es, Fits fs n P y.1.acked k y.1.srv y.2) :
    ∀ y ∈ x.liveSteps fs n k es, ∀ z, y.1.step fs n k y.2 = some z →
      Delivered P z.got z.acked z.ended := by
  induction es generalizing x with
  | nil => simp [liveSteps, steps]
  | cons e es ih =>
    by_cases hlive : Live (x.srv.stack.conns k)
    · have hopen : x.liveSteps fs n k (e :: es) =
          (x, e) :: ((x.step fs n k e).elim [] fun y ↦ y.liveSteps fs n k es) := by
        rw [liveSteps, steps, List.takeWhile_cons_of_pos (by simpa using hlive)]
        cases x.step fs n k e <;> rfl
      rw [hopen, List.forall_mem_cons] at hfits
      rw [hopen, List.forall_mem_cons]
      have hstep := fun y ↦ step_tracks (y := y) hlive h hinv hfits.1
      refine ⟨fun z hz ↦ (hstep z hz).1.delivered, ?_⟩
      cases hr : x.step fs n k e with
      | none => simp
      | some y =>
        rw [hr] at hfits
        obtain ⟨htracks, hinv'⟩ := hstep y hr
        exact ih htracks hinv' hfits.2
    · have hnil : x.liveSteps fs n k (e :: es) = [] :=
        List.takeWhile_cons_of_neg (by simpa using hlive)
      simp [hnil]

/-- In every run from `uip_init` on, from the SYN of an upload on, as long as the events meet the
condition: `upgrade_cgi` gets a prefix of the peer's stream, which is all that is acknowledged unless
the application has closed or aborted. -/
theorem upload_delivered (hstart : Started srv) (es : List Event) {w : Server × Event}
    (hw : w ∈ Transmit.steps fs n srv es) (hstate : (w.1.stack.conns k).state = .synRcvd)
    (hfirst : (w.1.stack.conns k).rcvNxt = P.first) (es' : List Event)
    (hfits : ∀ y ∈ Upload.liveSteps fs n k ⟨w.1, [], 0, false⟩ es',
      Fits fs n P y.1.acked k y.1.srv y.2) :
    ∀ y ∈ Upload.liveSteps fs n k ⟨w.1, [], 0, false⟩ es', ∀ z, y.1.step fs n k y.2 = some z →
      Delivered P z.got z.acked z.ended :=
  Upload.run_delivered (x := ⟨w.1, [], 0, false⟩) (.opening hstate hfirst) (inv_of_mem hstart.inv hw)
    es' hfits

end

instance (P : Peer) (acked : ℕ) (s : Stack) : Decidable (Genuine P acked s) :=
  decidable_of_iff _ (genuine_iff P acked s).symm

instance (s : Stack) (c : Conn) : Decidable (Accepted s c) :=
  decidable_of_iff _ (accepted_iff s c).symm

instance (g : Vars) (p : Packet) : Decidable (Completes g p) :=
  inferInstanceAs (Decidable (_ ∧ (_ ∨ _) ∧ ¬ _))

instance (fs : Fs) (n : ℕ) (u : ℕ → Uninit) (p : Packet) (h : App) :
    Decidable (TakesData fs n u p h) :=
  inferInstanceAs (Decidable (_ ∧ ∀ x ∈ entry fs (u (n + 1)) p h, _ ∧ (_ → Completes _ _ → _)))

instance (fs : Fs) (n : ℕ) (P : Peer) (acked k : ℕ) (srv : Server) (s : Stack) (u : ℕ → Uninit) :
    Decidable (Fitting fs n P acked k srv s u) :=
  decidable_of_iff _ (fitting_iff fs n P acked k srv s u).symm

instance (fs : Fs) (n : ℕ) (P : Peer) (acked k : ℕ) (srv : Server) :
    (e : Event) → Decidable (Fits fs n P acked k srv e)
  | .frame .. => inferInstanceAs (Decidable (_ → (_ → ¬ _) ∧ (_ → Fitting ..)))
  | .timer .. => .isTrue trivial

/-- The peer sends the first line of a request. -/
def uploader : Peer := ⟨ascii "POST /cgi/index \r\n", ⟨0, 0, 3, 0xe8⟩⟩

def post : Event :=
  frameOf (FrameIntegrity.headers 58 0x69 ++ [4, 0, 0, 80, 0, 0, 3, 0xe8, 0, 0, 0, 1, 0x50, 0x18,
    0x20, 0, 0x22, 0xc6, 0, 0] ++ uploader.stream)

/-- The server behind the SYN. -/
def opened : Option Server := ran (pages 1) fresh (handshake.take 1)

theorem opened_synRcvd {srv : Server} (h : opened = some srv) (e : Event) :
    (srv, e) ∈ Transmit.steps (pages 1) 2 fresh (handshake.take 1 ++ [e]) ∧
      (srv.stack.conns 0).state = .synRcvd ∧ (srv.stack.conns 0).rcvNxt = uploader.first := by
  have hfacts : opened.all (fun srv ↦ decide ((srv.stack.conns 0).state = .synRcvd ∧
      (srv.stack.conns 0).rcvNxt = uploader.first)) = true := by decide +kernel
  exact ⟨mem_steps_ran e h, of_decide_eq_true ((Option.all_eq_true _ _).mp hfacts srv h)⟩

/-- The handshake, the line twice, and a tick. -/
theorem upload_delivered_line : ∃ srv, opened = some srv ∧
    ∀ y ∈ Upload.liveSteps (pages 1) 2 0 ⟨srv, [], 0, false⟩ (handshake.drop 1 ++ [post, post, tick]),
      ∀ z, y.1.step (pages 1) 2 0 y.2 = some z → Delivered uploader z.got z.acked z.ended := by
  have hsome : opened.any (fun srv ↦ (Upload.liveSteps (pages 1) 2 0 ⟨srv, [], 0, false⟩
      (handshake.drop 1 ++ [post, post, tick])).all fun y ↦
        decide (Fits (pages 1) 2 uploader y.1.acked 0 y.1.srv y.2)) = true := by decide +kernel
  obtain ⟨srv, h, hfits⟩ := (Option.any_eq_true _ _).mp hsome
  obtain ⟨hmem, hstate, hfirst⟩ := opened_synRcvd h tick
  exact ⟨srv, h, upload_delivered fresh_started _ hmem hstate hfirst _ fun y hy ↦
    of_decide_eq_true (List.all_eq_true.mp hfits y hy)⟩

/-- A segment for the connection is one of the peer, unless it resets the connection. -/
def FromPeer (P : Peer) (acked k : ℕ) (srv : Server) : Event → Prop
  | .frame buf len _ =>
    let s := { srv.stack with buf := buf, len := len }
    FrameIntegrity.segmentOf s = some k → s.hasFlag tcpRst = false → Genuine P acked s
  | .timer .. => True

instance (P : Peer) (acked k : ℕ) (srv : Server) : (e : Event) → Decidable (FromPeer P acked k srv e)
  | .frame .. => inferInstanceAs (Decidable (_ → _ → Genuine ..))
  | .timer .. => .isTrue trivial

/-- Data that come with the acknowledgement of the SYN are acknowledged, but not taken. -/
theorem upload_loses_first :
    ¬ ∀ (fs : Fs) (n k : ℕ) (P : Peer) (srv : Server), Started srv → ∀ es : List Event,
      ∀ w ∈ Transmit.steps fs n srv es, (w.1.stack.conns k).state = .synRcvd →
      (w.1.stack.conns k).rcvNxt = P.first → ∀ es' : List Event,
      (∀ y ∈ Upload.liveSteps fs n k ⟨w.1, [], 0, false⟩ es',
        FromPeer P y.1.acked k y.1.srv y.2) →
      ∀ y ∈ Upload.liveSteps fs n k ⟨w.1, [], 0, false⟩ es', ∀ z, y.1.step fs n k y.2 = some z →
        Delivered P z.got z.acked z.ended := by
  intro hall
  have hsome : opened.any (fun srv ↦ ((Upload.liveSteps (pages 1) 2 0 ⟨srv, [], 0, false⟩
      [post]).all fun y ↦ decide (FromPeer uploader y.1.acked 0 y.1.srv y.2)) &&
        (Upload.liveSteps (pages 1) 2 0 ⟨srv, [], 0, false⟩ [post]).any fun y ↦
          (y.1.step (pages 1) 2 0 y.2).any fun z ↦
            decide (z.ended = false ∧ z.got ≠ uploader.stream.take z.acked)) = true := by
    decide +kernel
  obtain ⟨srv, h, hrun⟩ := (Option.any_eq_true _ _).mp hsome
  obtain ⟨hpeer, hlost⟩ := (Bool.and_eq_true _ _ ▸ hrun)
  obtain ⟨hmem, hstate, hfirst⟩ := opened_synRcvd h tick
  obtain ⟨y, hy, hstep⟩ := List.any_eq_true.mp hlost
  obtain ⟨z, hz, hdecide⟩ := (Option.any_eq_true _ _).mp hstep
  obtain ⟨hgoing, hne⟩ := of_decide_eq_true hdecide
  have hdelivered := hall _ _ 0 uploader _ fresh_started _ _ hmem hstate hfirst [post]
    (fun y hy ↦ of_decide_eq_true (List.all_eq_true.mp hpeer y hy)) y hy z hz
  exact hne (hdelivered.exactly hgoing)

end UBoot.Httpd.UploadDelivery
