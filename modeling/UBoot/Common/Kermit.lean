import Mathlib.Data.Int.Basic
import UBoot.Lib.Memory
import UBoot.Lib.Receive

namespace UBoot.Common.Kermit

open Lib.Memory Lib.Receive

def startChar : UInt8 := 0x01

def etxChar : UInt8 := 0x03

def endChar : UInt8 := 0x0d

def kEscape : UInt8 := 0x23

def sendType : UInt8 := 0x53

def dataType : UInt8 := 0x44

def breakType : UInt8 := 0x42

def tochar (x : ℕ) : UInt8 := UInt8.ofNat (x + 0x20)

def untochar (c : UInt8) : ℕ := (c - 0x20).toNat

/-- The variables of the receiver. The addresses count from `bin_start_address`; `os_data_state` is
always 0, and `os_data_count` is never looked at. -/
structure Recv where
  hisQuote : UInt8
  escape : Bool
  escapeSaved : Bool
  addr : ℕ
  addrSaved : ℕ
  kState : UInt8
  kStateSaved : UInt8
  n : ℕ
  lastN : ℤ
  sendParms : List UInt8
  mem : Mem

def ktrans (c : UInt8) : UInt8 :=
  if c &&& 0x60 = 0x40 then c &&& ~~~0x40
  else if c &&& 0x7f = 0x3f then c ||| 0x40
  else c

def binDataChar (c : UInt8) (r : Recv) : Recv :=
  { r with mem := store r.mem r.addr [c], addr := r.addr + 1 }

def kDataChar (c : UInt8) (r : Recv) : Recv :=
  if r.escape then { binDataChar (ktrans c) r with escape := false }
  else if c = r.hisQuote then { r with escape := true }
  else binDataChar c r

/-- `k_data_save` and `k_state_saved = k_state`. -/
def save (r : Recv) : Recv :=
  { r with escapeSaved := r.escape, addrSaved := r.addr, kStateSaved := r.kState }

/-- `k_data_restore` and `k_state = k_state_saved`. -/
def restore (r : Recv) : Recv :=
  { r with escape := r.escapeSaved, addr := r.addrSaved, kState := r.kStateSaved }

/-- The check of the sequence number for retried packets. -/
def checkpoint (n : ℕ) (r : Recv) : Recv :=
  if (n : ℤ) = r.lastN then restore { r with n := n }
  else save { r with n := n, lastN := n }

def sendDataSize : ℕ := 20

/-- A character of the data field. `send_parms` takes no more than 19 characters and the last one. -/
def dataChar (c : UInt8) (r : Recv) : Recv :=
  if r.kState = dataType then kDataChar c r
  else if r.kState = sendType then
    { r with sendParms :=
        if r.sendParms.length < sendDataSize then r.sendParms ++ [c]
        else r.sendParms.take (sendDataSize - 1) ++ [c] }
  else r

def isControl (c : UInt8) : Bool := c &&& 0xe0 == 0

/-- A character that is not less than a space. -/
def printable : Rx Recv UInt8 := do
  let c ← Rx.getc
  if isControl c then Rx.error else return c

/-- The character for a sum. -/
def check (sum : ℕ) : UInt8 := tochar ((sum + sum / 64 % 4) % 64)

/-- `while (length > 1)`, with so many characters to come. -/
def dataField : ℕ → ℕ → Rx Recv ℕ
  | 0, sum => return sum
  | length + 1, sum => do
    let c ← printable
    Rx.modify (dataChar c)
    dataField length (sum + c.toNat)

/-- The extended length, and the sum with it. -/
def extendedLength (sum : ℕ) : Rx Recv (ℕ × ℕ) := do
  let hi ← printable
  let lo ← printable
  let sum := sum + hi.toNat + lo.toNat
  let c ← printable
  if c ≠ check sum then Rx.error
  else return (untochar hi * 95 + untochar lo, sum + c.toNat)

/-- What is left of the length behind the type; a length of 0 stands for an extended one. -/
def packetLength (length sum : ℕ) : Rx Recv (ℕ × ℕ) :=
  if length = 0 then extendedLength sum else pure (length - 2, sum)

/-- The end of a packet with this sum. -/
def packetEnd (sum : ℕ) : Rx Recv Unit := do
  let c ← printable
  if c ≠ check sum then Rx.error
  else
    let c ← Rx.getc
    if c ≠ endChar then Rx.error else return ()

/-- The packet from its type on. -/
def packetBody (length sum : ℕ) : Rx Recv Unit := do
  let type ← printable
  Rx.modify fun r ↦ { r with kState := type }
  let r ← packetLength length (sum + type.toNat)
  let sum ← dataField (r.1 - 1) r.2
  packetEnd sum

/-- A packet behind its start character. -/
def packet : Rx Recv Unit := do
  let length ← printable
  let seq ← printable
  Rx.modify (checkpoint (untochar seq))
  packetBody (untochar length) (length.toNat + seq.toNat)

inductive Reply
  | ack (n : ℕ)
  | nack (n : ℕ)
  | abort
deriving DecidableEq

/-- `handle_send_packet`, as far as the receiver looks at it later. -/
def handleSendPacket (r : Recv) : Recv :=
  -- the last character of a full buffer is ignored
  let bytes := if sendDataSize - 1 ≤ r.sendParms.length then sendDataSize - 2
    else r.sendParms.length
  { r with hisQuote := if 5 < bytes then r.sendParms.getD 5 0 else kEscape }

/-- One turn of the main loop of `k_recv`; `none` while `getc` waits. -/
def turn (r : Recv) : List UInt8 → Option (Reply × Recv × List UInt8)
  | [] => none
  | c :: input =>
    if c = startChar then
      match packet.run { r with sendParms := [] } input with
      | none => none
      | some (none, r, rest) => some (.nack r.n, restore r, rest)
      | some (some (), r, rest) =>
        some (.ack r.n, if r.kState = sendType then handleSendPacket r else r, rest)
    else if c = etxChar then some (.abort, r, input)
    else turn r input

/-- The state in which `k_recv` enters the loop. -/
def initial (m : Mem) : Recv where
  hisQuote := kEscape
  escape := false
  escapeSaved := false
  addr := 0
  addrSaved := 0
  kState := 0
  kStateSaved := 0
  n := 0
  lastN := -1
  sendParms := []
  mem := m

/-- The main loop, for at most `fuel` turns: the size that `k_recv` returns. -/
def loop : ℕ → Recv → List UInt8 → Option (ℕ × Recv)
  | 0, _, _ => none
  | fuel + 1, r, input =>
    match turn r input with
    | none => none
    | some (.abort, r, _) => some (0, r)
    | some (.nack _, r, rest) => loop fuel r rest
    | some (.ack _, r, rest) => if r.kState = breakType then some (r.addr, r) else loop fuel r rest

def kRecv (m : Mem) (input : List UInt8) : Option (ℕ × Recv) := loop input.length (initial m) input

end UBoot.Common.Kermit
