import UBoot.Lib.CString

namespace UBoot.Net.Tftp

open Lib.CString

/-- `TIMEOUT_COUNT` of the build without `CONFIG_NET_RETRY_COUNT`. -/
def timeoutCountMax : ℕ := 10

def tftpBlockSize : ℕ := 512

inductive TftpState
  | rrq
  | data
  | tooLarge
  | badMagic
  | oack
deriving DecidableEq

inductive NetState
  | cont
  | restart
  | success
  | fail
deriving DecidableEq

/-- The functions `NetSetHandler` and `NetSetTimeout` are given. -/
inductive Handler
  | tftp
  | startAgain
deriving DecidableEq

/-- The UDP payloads the client sends. -/
inductive Tx
  | rrq (filename : CStr)
  | ack (block : UInt16)
  | error (code : UInt16) (text : CStr)
deriving DecidableEq

/-- The variables of `tftp.c` and those of `net.c` it works on. `tx` records what was sent and
`stores` the offsets of the calls of `store_block`, the last one first. -/
structure Client where
  tftpServerPort : ℕ
  tftpOurPort : ℕ
  tftpTimeoutCount : ℕ
  tftpBlock : UInt32
  tftpLastBlock : UInt32
  tftpBlockWrap : UInt32
  tftpBlockWrapOffset : UInt32
  tftpState : TftpState
  tftpFilename : CStr
  netState : NetState
  packetHandler : Handler
  timeHandler : Option Handler
  ethHalted : Bool
  netBootFileXferSize : UInt32
  loadAddr : UInt32
  mem : UInt32 → UInt8
  tx : List Tx
  stores : List UInt32

/-- `getenv("netretry")` and the devices, as `NetStartAgain` sees them. -/
structure Retry where
  noretry : Bool
  once : Bool
  netRestartWrap : Bool
  netDevExists : Bool

def netStartAgain (r : Retry) (c : Client) : Client :=
  let c := { c with ethHalted := true }
  if r.noretry then { c with netState := .fail }
  else if r.netRestartWrap then
    if r.netDevExists && !r.once then
      { c with packetHandler := .startAgain, timeHandler := some .startAgain }
    else { c with netState := .fail }
  else { c with netState := .restart }

def memcpy (mem : UInt32 → UInt8) (dst : UInt32) (src : List UInt8) : UInt32 → UInt8 :=
  fun a ↦ src.getD (a - dst).toNat (mem a)

def storeBlock (block : UInt32) (src : List UInt8) (c : Client) : Client :=
  let offset := block * 512 + c.tftpBlockWrapOffset
  let newsize := offset + UInt32.ofNat src.length
  { c with
    mem := memcpy c.mem (c.loadAddr + offset) src
    netBootFileXferSize := if c.netBootFileXferSize < newsize then newsize
      else c.netBootFileXferSize
    stores := offset :: c.stores }

def tftpPacket (c : Client) : Tx :=
  match c.tftpState with
  | .rrq => .rrq c.tftpFilename
  | .data | .oack => .ack c.tftpBlock.toUInt16
  | .tooLarge => .error 3 (ascii "File too large")
  | .badMagic => .error 2 (ascii "File has bad magic")

def tftpSend (c : Client) : Client := { c with tx := tftpPacket c :: c.tx }

/-- `ntohs` of the first two bytes. -/
def ntohs (a b : UInt8) : UInt32 := a.toUInt32 * 256 + b.toUInt32

/-- `STATE_DATA` with the counters of a new transfer. -/
def beginData (src : ℕ) (c : Client) : Client :=
  { c with
    tftpState := .data
    tftpServerPort := src
    tftpLastBlock := 0
    tftpBlockWrap := 0
    tftpBlockWrapOffset := 0 }

/-- Store and acknowledge the block in `TftpBlock`; a short one is the last. -/
def takeBlock (payload : List UInt8) (c : Client) : Client :=
  let c := { c with tftpLastBlock := c.tftpBlock, timeHandler := some .tftp }
  let c := tftpSend (storeBlock (c.tftpBlock - 1) payload c)
  { c with netState := if payload.length < tftpBlockSize then .success else c.netState }

/-- The block number of a packet; a wrap is counted before anything else is tested. -/
def setBlock (block : UInt32) (c : Client) : Client :=
  if block = 0 then
    { c with
      tftpBlock := block
      tftpBlockWrap := c.tftpBlockWrap + 1
      tftpBlockWrapOffset := c.tftpBlockWrapOffset + 512 * 65536 }
  else { c with tftpBlock := block }

/-- No block of the transfer was received yet. -/
def Waiting (c : Client) : Prop := c.tftpState = .rrq ∨ c.tftpState = .oack

instance (c : Client) : Decidable (Waiting c) :=
  inferInstanceAs (Decidable (c.tftpState = .rrq ∨ c.tftpState = .oack))

def tftpData (r : Retry) (src : ℕ) (block : UInt32) (payload : List UInt8) (c : Client) : Client :=
  let c := setBlock block c
  if Waiting c then
    let c := beginData src c
    if c.tftpBlock ≠ 1 then netStartAgain r c
    else if c.tftpBlock = c.tftpLastBlock then c else takeBlock payload c
  else if c.tftpBlock = c.tftpLastBlock then c else takeBlock payload c

def tftpOack (src : ℕ) (c : Client) : Client :=
  tftpSend { c with tftpState := .oack, tftpServerPort := src }

/-- `TftpHandler(pkt, dest, src, len)` on the bytes of the UDP payload. -/
def tftpHandler (r : Retry) (pkt : List UInt8) (dest src : ℕ) (c : Client) : Client :=
  if dest ≠ c.tftpOurPort then c
  else if c.tftpState ≠ .rrq ∧ src ≠ c.tftpServerPort then c
  else match pkt with
    | p₀ :: p₁ :: rest =>
      if ntohs p₀ p₁ = 6 then tftpOack src c
      else if ntohs p₀ p₁ = 3 then
        match rest with
        | b₀ :: b₁ :: payload => tftpData r src (ntohs b₀ b₁) payload c
        | _ => c
      else if ntohs p₀ p₁ = 5 then netStartAgain r c
      else c
    | _ => c

def tftpTimeout (r : Retry) (c : Client) : Client :=
  let c := { c with tftpTimeoutCount := c.tftpTimeoutCount + 1 }
  if timeoutCountMax < c.tftpTimeoutCount then netStartAgain r c
  else tftpSend { c with timeHandler := some .tftp }

/-- `TftpStart` and the reset of the transfer size behind it in `NetLoop`; the board may have been
used before, so everything `TftpStart` does not set is arbitrary. -/
def tftpStart (ourPort : ℕ) (filename : CStr) (c : Client) : Client :=
  let c := tftpSend { c with
    timeHandler := some .tftp
    packetHandler := .tftp
    tftpServerPort := 69
    tftpTimeoutCount := 0
    tftpState := .rrq
    tftpOurPort := ourPort
    tftpFilename := filename
    tftpBlock := 0
    netState := .cont
    ethHalted := false
    tx := []
    stores := [] }
  { c with netBootFileXferSize := 0 }

/-- What `NetReceive` hands to the handler that is set. -/
def receive (r : Retry) (pkt : List UInt8) (dest src : ℕ) (c : Client) : Client :=
  match c.packetHandler with
  | .tftp => tftpHandler r pkt dest src c
  | .startAgain => c

/-- What `NetLoop` does when the timer has expired. -/
def expire (r : Retry) (c : Client) : Client :=
  match c.timeHandler with
  | none => c
  | some .tftp => tftpTimeout r { c with timeHandler := none }
  | some .startAgain => { c with timeHandler := none, netState := .restart }

end UBoot.Net.Tftp
