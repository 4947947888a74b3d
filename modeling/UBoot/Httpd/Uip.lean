import Mathlib.Data.Int.Basic
import UBoot.Httpd.Appcall
import UBoot.Lib.Memory

namespace UBoot.Httpd.Uip

open Lib.Memory Appcall

/-- A sequence number: four bytes, the high one first. -/
structure Seq where
  b0 : UInt8
  b1 : UInt8
  b2 : UInt8
  b3 : UInt8
deriving DecidableEq

def Seq.toNat (s : Seq) : ℕ :=
  s.b0.toNat * 16777216 + s.b1.toNat * 65536 + s.b2.toNat * 256 + s.b3.toNat

def Seq.load (m : Mem) (off : ℕ) : Seq := ⟨m off, m (off + 1), m (off + 2), m (off + 3)⟩

def Seq.bytes (s : Seq) : List UInt8 := [s.b0, s.b1, s.b2, s.b3]

/-- `++x[1]` with the carry into `x[0]`. -/
def carry1 (b0 b1 : UInt8) : UInt8 × UInt8 := (if b1 + 1 = 0 then b0 + 1 else b0, b1 + 1)

def uipAdd32 (op32 : Seq) (op16 : UInt16) : Seq :=
  let low := (op16 &&& 0xff).toUInt8
  let high := (op16 >>> 8).toUInt8
  let acc3 := op32.b3 + low
  let acc2 := op32.b2 + high
  let (acc0, acc1) := if acc2 < high then carry1 op32.b0 op32.b1 else (op32.b0, op32.b1)
  if acc3 < low then
    let (acc0, acc1) := if acc2 + 1 = 0 then carry1 acc0 acc1 else (acc0, acc1)
    ⟨acc0, acc1, acc2 + 1, acc3⟩
  else ⟨acc0, acc1, acc2, acc3⟩

theorem uipAdd32_toNat (s : Seq) (n : UInt16) :
    (uipAdd32 s n).toNat = (s.toNat + n.toNat) % 4294967296 := by
  have hlow : ((n &&& 0xff).toUInt8).toNat = n.toNat % 256 := by
    have hand : n.toNat % 256 &&& 255 = n.toNat % 256 :=
      (Nat.and_two_pow_sub_one_eq_mod (n.toNat % 256) 8).trans (Nat.mod_mod _ _)
    simp [hand]
  have hhigh : ((n >>> 8).toUInt8).toNat = n.toNat / 256 := by
    have hlt : n.toNat / 256 < 256 := Nat.div_lt_of_lt_mul n.toNat_lt
    simp [Nat.shiftRight_eq_div_pow, Nat.mod_eq_of_lt hlt]
  have hzero : ∀ x : UInt8, x + 1 = 0 ↔ x.toNat = 255 := by
    intro x
    rw [← UInt8.toNat_inj, UInt8.toNat_add]
    have := x.toNat_lt
    simp only [UInt8.reduceToNat, Nat.reducePow]
    omega
  have h₀ := s.b0.toNat_lt
  have h₁ := s.b1.toNat_lt
  have h₂ := s.b2.toNat_lt
  have h₃ := s.b3.toNat_lt
  have hn := n.toNat_lt
  simp only [uipAdd32, carry1, hzero, UInt8.lt_iff_toNat_lt, UInt8.toNat_add, hlow, hhigh]
  split_ifs <;>
    simp only [Seq.toNat, UInt8.toNat_add, hlow, hhigh, UInt8.reduceToNat, Nat.reducePow] at * <;>
    omega

theorem Seq.toNat_lt (s : Seq) : s.toNat < 4294967296 := by
  have h₀ := s.b0.toNat_lt
  have h₁ := s.b1.toNat_lt
  have h₂ := s.b2.toNat_lt
  have h₃ := s.b3.toNat_lt
  simp only [Seq.toNat]
  omega

theorem Seq.toNat_inj {s t : Seq} (h : s.toNat = t.toNat) : s = t := by
  have h₀ := s.b0.toNat_lt
  have h₁ := s.b1.toNat_lt
  have h₂ := s.b2.toNat_lt
  have h₃ := s.b3.toNat_lt
  have k₀ := t.b0.toNat_lt
  have k₁ := t.b1.toNat_lt
  have k₂ := t.b2.toNat_lt
  have k₃ := t.b3.toNat_lt
  simp only [Seq.toNat] at h
  have e₀ : s.b0.toNat = t.b0.toNat := by omega
  have e₁ : s.b1.toNat = t.b1.toNat := by omega
  have e₂ : s.b2.toNat = t.b2.toNat := by omega
  have e₃ : s.b3.toNat = t.b3.toNat := by omega
  cases s
  cases t
  simp only [UInt8.toNat_inj] at e₀ e₁ e₂ e₃
  simp only [e₀, e₁, e₂, e₃]

def uipLlhLen : ℕ := 14

def uipConns : ℕ := 10

def uipRto : UInt8 := 3

def uipMaxrtx : UInt8 := 8

def uipMaxsynrtx : UInt8 := 3

def uipTimeWaitTimeout : UInt8 := 120

/-- `UIP_BUFSIZE - UIP_LLH_LEN - 40`. -/
def uipTcpMss : UInt16 := 1446

def uipReceiveWindow : ℕ := 1024

def tcpFin : UInt8 := 0x01

def tcpSyn : UInt8 := 0x02

def tcpRst : UInt8 := 0x04

def tcpPsh : UInt8 := 0x08

def tcpAck : UInt8 := 0x10

def tcpUrg : UInt8 := 0x20

def tcpCtl : UInt8 := 0x3f

/-- The states of a connection without active open. -/
inductive TcpState
  | closed
  | synRcvd
  | established
  | finWait1
  | finWait2
  | closing
  | timeWait
  | lastAck
deriving DecidableEq

/-- `struct uip_conn`, with an address as one number and the application state left to the
application. -/
structure Conn where
  ripaddr : ℕ
  lport : ℕ
  rport : ℕ
  rcvNxt : Seq
  sndNxt : Seq
  len : UInt16
  mss : UInt16
  initialmss : UInt16
  sa : UInt8
  sv : UInt8
  rto : UInt8
  state : TcpState
  timer : UInt8
  nrtx : UInt8

/-- The variables of `uip.c`. `underflow` records that a subtraction from `uip_len` has wrapped
round; `uip_appdata` is an offset in `uip_buf`. -/
structure Stack where
  hostaddr : ℕ
  listenports : List ℕ
  conns : ℕ → Conn
  conn : ℕ
  iss : Seq
  ipid : UInt16
  buf : Mem
  len : UInt16
  appdata : ℕ
  sappdata : Mem
  slen : UInt16
  flags : UipFlags
  underflow : Bool

namespace Stack

variable (s : Stack)

def connr : Conn := s.conns s.conn

def setConn (c : Conn) : Stack := { s with conns := fun k ↦ if k = s.conn then c else s.conns k }

/-- `uip_len -= n`. -/
def subLen (n : ℕ) : Stack :=
  { s with
    len := s.len - UInt16.ofNat n
    underflow := s.underflow || decide (s.len.toNat < n) }

def ipLen : ℕ := load16 s.buf 16

def srcipaddr : ℕ := load32 s.buf 26

def destipaddr : ℕ := load32 s.buf 30

def srcport : ℕ := load16 s.buf 34

def destport : ℕ := load16 s.buf 36

def seqno : Seq := Seq.load s.buf 38

def ackno : Seq := Seq.load s.buf 42

def tcpoffset : UInt8 := s.buf 46

def tcpFlags : UInt8 := s.buf 47

def wnd : ℕ := load16 s.buf 48

def urgp : ℕ := load16 s.buf 52

def hasFlag (f : UInt8) : Bool := s.tcpFlags &&& f ≠ 0

def putBytes (off : ℕ) (bs : List UInt8) : Stack := { s with buf := store s.buf off bs }

def put16 (off n : ℕ) : Stack := s.putBytes off (be16 n)

def drop : Stack := { s with len := 0 }

end Stack

/-- `if((acc += x) < x) ++acc`. -/
def addCarry (acc x : UInt16) : UInt16 := if acc + x < x then acc + x + 1 else acc + x

def word (m : Mem) (off : ℕ) : UInt16 := UInt16.ofNat (load16 m off)

def chksumWords (m : Mem) : ℕ → ℕ → UInt16 → UInt16
  | 0, _, acc => acc
  | n + 1, off, acc => chksumWords m n (off + 2) (addCarry acc (word m off))

def uipChksum (m : Mem) (off len : ℕ) : UInt16 :=
  let acc := chksumWords m (len / 2) off 0
  if len % 2 = 1 then addCarry acc (UInt16.ofNat ((m (off + len - 1)).toNat * 256)) else acc

namespace Stack

variable (s : Stack)

def uipIpchksum : UInt16 := uipChksum s.buf uipLlhLen 20

/-- The length of the data is computed from the IP header in 16 bits. -/
def uipTcpchksum : UInt16 :=
  let hsum := uipChksum s.buf (20 + uipLlhLen) 20
  let sum := uipChksum s.buf s.appdata (UInt16.ofNat s.ipLen - 40).toNat
  let sum := addCarry sum hsum
  let sum := addCarry sum (word s.buf 26)
  let sum := addCarry sum (word s.buf 28)
  let sum := addCarry sum (word s.buf 30)
  let sum := addCarry sum (word s.buf 32)
  let sum := addCarry sum 6
  addCarry sum (UInt16.ofNat s.ipLen - 20)

/-- From the label `tcp_send_noconn` on. -/
def tcpSendNoconn : Stack :=
  let s := (s.put16 16 s.len.toNat).put16 50 0
  let s := s.put16 50 (0xffff - s.uipTcpchksum.toNat)
  let s := ((s.putBytes 14 [0x45, 0]).putBytes 20 [0, 0]).putBytes 22 [255]
  let s := { s with ipid := s.ipid + 1 }
  let s := (s.put16 18 s.ipid.toNat).put16 24 0
  s.put16 24 (0xffff - s.uipIpchksum.toNat)

/-- From the label `tcp_send` on; the connection is `uip_connr`. -/
def tcpSend : Stack :=
  let c := s.connr
  let s := (s.putBytes 42 c.rcvNxt.bytes).putBytes 38 c.sndNxt.bytes
  let s := ((s.putBytes 23 [6]).put16 34 c.lport).put16 36 c.rport
  let s := (s.putBytes 26 (be32 s.hostaddr)).putBytes 30 (be32 c.ripaddr)
  (s.put16 48 uipReceiveWindow).tcpSendNoconn

def tcpSendNoopts : Stack := (s.putBytes 46 [0x50]).tcpSend

def tcpSendNodata (flags : UInt8) : Stack :=
  { s.putBytes 47 [flags] with len := 40 }.tcpSendNoopts

def tcpSendAck : Stack := s.tcpSendNodata tcpAck

def tcpSendSynack : Stack :=
  let s := (s.putBytes 47 [tcpSyn ||| tcpAck]).putBytes 54 (2 :: 4 :: be16 uipTcpMss.toNat)
  ({ s with len := 44 }.putBytes 46 [0x60]).tcpSend

/-- The reset in reply to a segment without a connection. -/
def reset : Stack :=
  if s.hasFlag tcpRst then s.drop
  else
    let seqno := s.seqno
    let ackno := s.ackno
    let src := s.srcipaddr
    let dest := s.destipaddr
    let sport := s.srcport
    let dport := s.destport
    let s := { s.putBytes 47 [tcpRst ||| tcpAck] with len := 40 }.putBytes 46 [0x50]
    let s := (s.putBytes 38 ackno.bytes).putBytes 42 (uipAdd32 seqno 1).bytes
    let s := ((s.put16 34 dport).put16 36 sport).putBytes 30 (be32 src)
    (s.putBytes 26 (be32 dest)).tcpSendNoconn

def addRcvNxt (n : UInt16) : Stack :=
  s.setConn { s.connr with rcvNxt := uipAdd32 s.connr.rcvNxt n }

/-- The ICMP input. An answer keeps the length of the request. -/
def icmpInput : Stack :=
  if s.buf 34 ≠ 8 then s.drop
  else
    let src := s.srcipaddr
    let dest := s.destipaddr
    let icmpchksum := load16 s.buf 36
    let icmpchksum := if 0xffff - 0x0800 ≤ icmpchksum then icmpchksum + 0x0801 else icmpchksum + 0x0800
    let s := (s.putBytes 34 [0]).put16 36 icmpchksum
    (s.putBytes 30 (be32 src)).putBytes 26 (be32 dest)

end Stack

/-- The loop that looks for the MSS option, `none` where it does not end. `c` has 8 bits, so it has
come back to a value after 256 rounds. -/
def mssOption (m : Mem) (bound : ℕ) : ℕ → UInt8 → Option (Option ℕ)
  | 0, _ => none
  | n + 1, c =>
    if c.toNat < bound then
      let opt := m (54 + c.toNat)
      let optlen := m (55 + c.toNat)
      if opt = 0 then some none
      else if opt = 1 then mssOption m bound n (c + 1)
      else if opt = 2 ∧ optlen = 4 then some (some (load16 m (56 + c.toNat)))
      else if optlen = 0 then some none
      else mssOption m bound n (c + optlen)
    else some none

/-- A free connection, or the one that is the longest in `TIME_WAIT`. -/
def pickConn (conns : ℕ → Conn) : List ℕ → Option ℕ → Option ℕ
  | [], best => best
  | k :: ks, best =>
    if (conns k).state = .closed then some k
    else if (conns k).state = .timeWait ∧ best.all (fun j ↦ (conns j).timer < (conns k).timer) then
      pickConn conns ks (some k)
    else pickConn conns ks best

namespace Stack

variable (s : Stack)

/-- The options of a SYN. -/
def readMss (c : Conn) : Option Conn :=
  if 0x50 < s.tcpoffset &&& 0xf0 then
    (mssOption s.buf ((s.tcpoffset.toNat / 16 - 5) * 4) 257 0).map fun
      | none => c
      | some n =>
        let mss := if uipTcpMss.toNat < n then uipTcpMss else UInt16.ofNat n
        { c with mss := mss, initialmss := mss }
  else some c

def foundListen : Option Stack :=
  match pickConn s.conns (List.range uipConns) none with
  | none => some s.drop
  | some k =>
    (s.readMss { s.conns k with
      rto := uipRto
      timer := uipRto
      sa := 0
      sv := 4
      nrtx := 0
      lport := s.destport
      rport := s.srcport
      ripaddr := s.srcipaddr
      state := .synRcvd
      sndNxt := s.iss
      len := 1
      rcvNxt := uipAdd32 s.seqno 1 }).map fun c ↦ (setConn { s with conn := k } c).tcpSendSynack

end Stack

/-- The estimate of the round-trip time, in a `signed char`. -/
def estimateRtt (c : Conn) : Conn :=
  let m : Int8 := Int8.ofInt (c.rto.toNat - c.timer.toNat)
  let m := Int8.ofInt (m.toInt - (c.sa >>> 3).toNat)
  let sa := c.sa + m.toUInt8
  let m := if m < 0 then -m else m
  let m := Int8.ofInt (m.toInt - (c.sv >>> 2).toNat)
  let sv := c.sv + m.toUInt8
  { c with sa := sa, sv := sv, rto := (sa >>> 3) + sv }

/-- Where `uip_process` goes on behind a call of the application. -/
inductive Resume
  | appsend
  | apprexmit
  | drop
  | finack
  | sendAck
  | sendRst
deriving DecidableEq

/-- `uip_process` up to the call of the application, if it makes one. -/
inductive Before
  | done (s : Stack)
  | call (s : Stack) (next : Resume)

namespace Stack

variable (s : Stack)

/-- An acknowledgement of the outstanding data. -/
def checkAck : Stack :=
  let c := s.connr
  let acc := uipAdd32 c.sndNxt c.len
  if s.hasFlag tcpAck ∧ c.len ≠ 0 ∧ s.ackno = acc then
    let c := { c with sndNxt := acc }
    let c := if c.nrtx = 0 then estimateRtt c else c
    { s.setConn { c with timer := c.rto } with flags := { ackdata := true } }
  else s

/-- New data from the peer. -/
def takeData : Stack :=
  if 0 < s.len then { s.addRcvNxt s.len with flags := { s.flags with newdata := true } } else s

/-- The urgent data, or what the urgent pointer holds without the flag. -/
def skipUrgent : Stack :=
  if s.hasFlag tcpUrg then
    let urglen := min (s.urgp % 256) s.len.toNat
    let s := (s.addRcvNxt (UInt16.ofNat urglen)).subLen urglen
    { s with appdata := s.appdata + urglen }
  else
    let n := s.urgp
    let s := s.subLen n
    { s with appdata := s.appdata + n }

def updateMss : Stack :=
  let wnd := UInt16.ofNat s.wnd
  let c := s.connr
  s.setConn { c with mss := if c.initialmss < wnd ∨ wnd = 0 then c.initialmss else wnd }

def established : Before :=
  if s.hasFlag tcpFin then
    if s.connr.len ≠ 0 then .done s.drop
    else .call { s.addRcvNxt (1 + s.len) with flags := { close := true, newdata := 0 < s.len } } .finack
  else
    let s := s.skipUrgent.takeData.updateMss
    if s.flags.newdata || s.flags.ackdata then .call { s with slen := 0 } .appsend
    else .done s.drop

/-- The peer's data and its FIN after the application has closed. -/
def finWait1 : Before :=
  let s := if 0 < s.len then s.addRcvNxt s.len else s
  let c := s.connr
  if s.hasFlag tcpFin then
    let c :=
      if s.flags.ackdata then { c with state := .timeWait, timer := 0, len := 0 }
      else { c with state := .closing }
    .call { (s.setConn c).addRcvNxt 1 with flags := { close := true } } .sendAck
  else if s.flags.ackdata then .done (s.setConn { c with state := .finWait2, len := 0 }).drop
  else if 0 < s.len then .done s.tcpSendAck
  else .done s.drop

def finWait2 : Before :=
  let s := if 0 < s.len then s.addRcvNxt s.len else s
  if s.hasFlag tcpFin then
    let c := { s.connr with state := .timeWait, timer := 0 }
    .call { (s.setConn c).addRcvNxt 1 with flags := { close := true } } .sendAck
  else if 0 < s.len then .done s.tcpSendAck
  else .done s.drop

/-- The `switch` on the state of the connection. -/
def switchState : Before :=
  let c := s.connr
  match c.state with
  | .synRcvd =>
    if s.flags.ackdata then
      let s := { s.setConn { c with state := .established, len := 0 } with flags := { connected := true } }
      .call { s.takeData with slen := 0 } .appsend
    else .done s.drop
  | .established => s.established
  | .lastAck =>
    if s.flags.ackdata then
      .call { s.setConn { c with state := .closed } with flags := { close := true } } .drop
    else .done s.drop
  | .finWait1 => s.finWait1
  | .finWait2 => s.finWait2
  | .timeWait => .done s.tcpSendAck
  | .closing =>
    if s.flags.ackdata then .done (s.setConn { c with state := .timeWait, timer := 0 }).drop
    else .done s.drop
  | .closed => .done s.drop

/-- The length of the TCP header. -/
def tcpHlen : ℕ := s.tcpoffset.toNat / 16 * 4

/-- From the label `found` on. -/
def found : Before :=
  let s := { s with flags := {} }
  if s.hasFlag tcpRst then
    .call { s.setConn { s.connr with state := .closed } with flags := { abort := true } } .drop
  else
    let s := s.subLen (s.tcpHlen + 20)
    if 0 < s.len ∧ s.seqno ≠ s.connr.rcvNxt then .done s.tcpSendAck
    else s.checkAck.switchState

/-- The connection of a segment. -/
def isFor (k : ℕ) : Bool :=
  let c := s.conns k
  c.state ≠ .closed && s.destport == c.lport && s.srcport == c.rport && s.srcipaddr == c.ripaddr

def tcpInput : Option Before :=
  if s.uipTcpchksum ≠ 0xffff then some (.done s.drop)
  else
    match (List.range uipConns).find? s.isFor with
    | some k => some { s with conn := k }.found
    | none =>
      if s.tcpFlags &&& tcpCtl ≠ tcpSyn then some (.done s.reset)
      else if s.destport ∈ s.listenports then s.foundListen.map .done
      else some (.done s.reset)

/-- The length of the packet is taken from the IP header, byte by byte. -/
def fixLen : Stack :=
  let len := s.len.toNat
  let len := if (s.buf 16).toNat ≠ len / 256 then len % 256 + (s.buf 16).toNat * 256 else len
  let len := if (s.buf 17).toNat ≠ len % 256 then len / 256 * 256 + (s.buf 17).toNat else len
  { s with len := UInt16.ofNat len }

/-- `uip_process(UIP_DATA)` on the packet in `uip_buf`. -/
def input : Option Before :=
  let s := { s with appdata := uipLlhLen + 40 }
  if s.buf 14 ≠ 0x45 then some (.done s.drop)
  else
    let s := s.fixLen
    if s.buf 20 &&& 0x3f ≠ 0 ∨ s.buf 21 ≠ 0 then some (.done s.drop)
    else if s.destipaddr ≠ s.hostaddr then some (.done s.drop)
    else if s.uipIpchksum ≠ 0xffff then some (.done s.drop)
    else if s.buf 23 = 6 then s.tcpInput
    else if s.buf 23 ≠ 1 then some (.done s.drop)
    else some (.done s.icmpInput)

/-- `uip_process(UIP_TIMER)` for the connection `uip_conn`. -/
def timer : Before :=
  let s := { s with appdata := uipLlhLen + 40, iss := uipAdd32 s.iss 1, len := 0 }
  let c := s.connr
  if c.state = .timeWait ∨ c.state = .finWait2 then
    let c := { c with timer := c.timer + 1 }
    let c := if c.timer = uipTimeWaitTimeout then { c with state := .closed } else c
    .done (s.setConn c).drop
  else if c.state = .closed then .done s.drop
  else if c.len ≠ 0 then
    if c.timer = 0 then
      if c.nrtx = uipMaxrtx ∨ (c.state = .synRcvd ∧ c.nrtx = uipMaxsynrtx) then
        let c := { c with timer := c.timer - 1, state := .closed }
        .call { s.setConn c with flags := { timedout := true } } .sendRst
      else
        let c := { c with timer := uipRto <<< (if 4 < c.nrtx then 4 else c.nrtx), nrtx := c.nrtx + 1 }
        let s := s.setConn c
        match c.state with
        | .synRcvd => .done s.tcpSendSynack
        | .established => .call { s with slen := 0, flags := { rexmit := true } } .apprexmit
        | .finWait1 | .closing | .lastAck => .done (s.tcpSendNodata (tcpFin ||| tcpAck))
        | _ => .done s.drop
    else .done (s.setConn { c with timer := c.timer - 1 }).drop
  else if c.state = .established then .call { s with slen := 0, flags := { poll := true } } .appsend
  else .done s.drop

/-- From the label `apprexmit` on. -/
def apprexmit : Stack :=
  let s := if 0 < s.slen then s.putBytes 54 (bytes s.sappdata 0 s.slen.toNat) else s
  if 0 < s.slen ∧ 0 < s.connr.len then
    { s.putBytes 47 [tcpAck ||| tcpPsh] with len := s.connr.len + 40 }.tcpSendNoopts
  else if s.flags.newdata then { s.putBytes 47 [tcpAck] with len := 40 }.tcpSendNoopts
  else s.drop

/-- From the label `appsend` on. -/
def appsend : Stack :=
  let c := s.connr
  if s.flags.abort then
    { s.setConn { c with state := .closed } with slen := 0 }.tcpSendNodata (tcpRst ||| tcpAck)
  else if s.flags.close then
    { s.setConn { c with len := 1, state := .finWait1, nrtx := 0 } with slen := 0 }.tcpSendNodata
      (tcpFin ||| tcpAck)
  else if 0 < s.slen then
    let c := if s.flags.ackdata then { c with len := 0 } else c
    let slen := if c.len = 0 then min s.slen c.mss else c.len
    { s.setConn { c with len := slen, nrtx := 0 } with slen := slen }.apprexmit
  else (s.setConn { c with len := 0, nrtx := 0 }).apprexmit

/-- `uip_process` behind the call of the application. -/
def resume : Resume → Stack
  | .appsend => s.appsend
  | .apprexmit => s.apprexmit
  | .drop => s.drop
  | .finack =>
    (s.setConn { s.connr with len := 1, state := .lastAck, nrtx := 0 }).tcpSendNodata
      (tcpFin ||| tcpAck)
  | .sendAck => s.tcpSendAck
  | .sendRst => s.tcpSendNodata (tcpRst ||| tcpAck)

/-! Sending only touches the packet. -/

theorem putBytes_eq (off : ℕ) (bs : List UInt8) :
    s.putBytes off bs = { s with buf := store s.buf off bs } := rfl

theorem tcpSendNoconn_eq : ∃ buf ipid, s.tcpSendNoconn = { s with buf := buf, ipid := ipid } := by
  simp only [tcpSendNoconn, put16, putBytes_eq]
  exact ⟨_, _, rfl⟩

theorem tcpSend_eq : ∃ buf ipid, s.tcpSend = { s with buf := buf, ipid := ipid } := by
  simp only [tcpSend, put16, putBytes_eq]
  obtain ⟨buf, ipid, h⟩ := tcpSendNoconn_eq { s with buf := _ }
  exact ⟨buf, ipid, h⟩

theorem tcpSendNoopts_eq : ∃ buf ipid, s.tcpSendNoopts = { s with buf := buf, ipid := ipid } := by
  obtain ⟨buf, ipid, h⟩ := tcpSend_eq (s.putBytes 46 [0x50])
  exact ⟨buf, ipid, h⟩

theorem tcpSendNodata_eq (flags : UInt8) :
    ∃ buf ipid, s.tcpSendNodata flags = { s with buf := buf, ipid := ipid, len := 40 } := by
  obtain ⟨buf, ipid, h⟩ := tcpSendNoopts_eq { s.putBytes 47 [flags] with len := 40 }
  exact ⟨buf, ipid, h⟩

theorem tcpSendSynack_eq :
    ∃ buf ipid, s.tcpSendSynack = { s with buf := buf, ipid := ipid, len := 44 } := by
  simp only [tcpSendSynack, putBytes_eq]
  obtain ⟨buf, ipid, h⟩ := tcpSend_eq { s with buf := _, len := 44 }
  exact ⟨buf, ipid, h⟩

theorem reset_eq : ∃ buf ipid len, s.reset = { s with buf := buf, ipid := ipid, len := len } := by
  unfold reset
  split
  · exact ⟨s.buf, s.ipid, 0, rfl⟩
  · simp only [put16, putBytes_eq]
    obtain ⟨buf, ipid, h⟩ := tcpSendNoconn_eq { s with buf := _, len := 40 }
    exact ⟨buf, ipid, 40, h⟩

theorem icmpInput_eq : ∃ buf len, s.icmpInput = { s with buf := buf, len := len } := by
  unfold icmpInput
  split
  · exact ⟨s.buf, 0, rfl⟩
  · simp only [put16, putBytes_eq]
    exact ⟨_, s.len, rfl⟩

theorem fixLen_len : s.fixLen.len.toNat = s.ipLen := by
  have h₁ := (s.buf 16).toNat_lt
  have h₂ := (s.buf 17).toNat_lt
  have hvalue : ∀ len : ℕ, (if (s.buf 17).toNat ≠
      (if (s.buf 16).toNat ≠ len / 256 then len % 256 + (s.buf 16).toNat * 256 else len) % 256 then
        (if (s.buf 16).toNat ≠ len / 256 then len % 256 + (s.buf 16).toNat * 256 else len) / 256 * 256 +
          (s.buf 17).toNat
      else if (s.buf 16).toNat ≠ len / 256 then len % 256 + (s.buf 16).toNat * 256 else len) =
      (s.buf 16).toNat * 256 + (s.buf 17).toNat := by
    intro len
    split_ifs <;> omega
  have hlt : (s.buf 16).toNat * 256 + (s.buf 17).toNat < 65536 := by omega
  simp only [fixLen, hvalue, ipLen, load16]
  exact UInt16.toNat_ofNat_of_lt' hlt

end Stack

end UBoot.Httpd.Uip
