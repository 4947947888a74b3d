import Mathlib.Data.Int.Basic
import UBoot.Lib.CString
import UBoot.Lib.ReadLog

namespace UBoot.Net.Bootp

open Lib.CString Lib.Memory Lib.ReadLog

/-- The offset of `bp_vend` in `Bootp_t`. -/
def bpVend : ℕ := 236

/-- The options start behind the magic cookie. -/
def optionsStart : ℕ := bpVend + 4

/-- `sizeof (Bootp_t)`, with the `OPT_SIZE` of a build with DHCP. -/
def bootpHdrSize : ℕ := bpVend + 312

/-- `BOOTP_VENDOR_MAGIC` in network byte order. -/
def bootpVendorMagic : List UInt8 := [0x63, 0x82, 0x53, 0x63]

def endOption : UInt8 := 0xff

def portBootps : ℕ := 67

def portBootpc : ℕ := 68

/-- An address that is not known. -/
def noAddress : List UInt8 := [0, 0, 0, 0]

/-- The network parameters that options set. Addresses and the lease time are in network byte order,
texts without the NUL that is stored behind them. `bpFile` is the field of the packet itself. -/
structure NetParams where
  netOurSubnetMask : List UInt8
  netOurGatewayIP : List UInt8
  netOurDNSIP : List UInt8
  netOurHostName : CStr
  netOurRootPath : CStr
  netOurNISDomain : CStr
  netBootFileSize : ℕ
  dhcpLeasetime : List UInt8
  netDHCPServerIP : List UInt8
  bpFile : CStr
deriving DecidableEq

/-- `BootpCheckPkt`: 0 for a packet that is taken. -/
def bootpCheckPkt (bootpID : List UInt8) (dest src len : ℕ) : Reader ℤ := do
  if dest ≠ portBootpc ∨ src ≠ portBootps then return -1
  else if len < bpVend then return -2
  else
    let op ← Reader.read 0
    if op ∉ [1, 2, 5, 6] then return -3
    else
      let htype ← Reader.read 1
      if htype ≠ 1 then return -4
      else
        let hlen ← Reader.read 2
        if hlen ≠ 6 then return -5
        else
          let id ← Reader.readBytes 4 4
          if id ≠ bootpID then return -6 else return 0

def truncateSz (maxlen curlen : ℕ) : ℕ := if maxlen ≤ curlen then maxlen - 1 else curlen

/-- The `switch` of `DhcpOptionsProcess`: how many bytes it copies from behind the option's header,
and where it stores them. -/
def dhcpOption (p : NetParams) (code : UInt8) (oplen : ℕ) : ℕ × (List UInt8 → NetParams) :=
  match code.toNat with
  | 1 => (4, fun data ↦ { p with netOurSubnetMask := data })
  | 3 => (4, fun data ↦ { p with netOurGatewayIP := data })
  | 6 => (4, fun data ↦ { p with netOurDNSIP := data })
  | 12 => (truncateSz 32 oplen, fun data ↦ { p with netOurHostName := data })
  | 17 => (truncateSz 64 oplen, fun data ↦ { p with netOurRootPath := data })
  | 51 => (4, fun data ↦ { p with dhcpLeasetime := data })
  | 54 => (4, fun data ↦ { p with netDHCPServerIP := data })
  | 67 =>
    -- only used when the packet has no boot file outside the options
    if first p.bpFile = 0 ∧ 0 < truncateSz 128 oplen then
      (truncateSz 128 oplen, fun data ↦ { p with bpFile := data })
    else (0, fun _ ↦ p)
  | _ => (0, fun _ ↦ p)

/-- The loop of `DhcpOptionsProcess`, with the offsets of the options it visits. Each turn moves on
by two bytes at least, so that `fuel` is not used up. -/
def dhcpOptions : ℕ → ℕ → NetParams → Reader (NetParams × List ℕ)
  | 0, _, p => return (p, [])
  | fuel + 1, popt, p => do
    if optionsStart + bootpHdrSize ≤ popt then return (p, [])
    else
      let code ← Reader.read popt
      if code = endOption then return (p, [])
      else
        let oplen ← Reader.read (popt + 1)
        let option := dhcpOption p code oplen.toNat
        let data ← Reader.readBytes (popt + 2) option.1
        let r ← dhcpOptions fuel (popt + oplen.toNat + 2) (option.2 data)
        return (r.1, popt :: r.2)

def dhcpOptionsProcess (p : NetParams) : Reader (NetParams × List ℕ) :=
  dhcpOptions bootpHdrSize optionsStart p

/-- The loop of `DhcpMessageType`, with the offsets of the options it visits; nothing bounds it. -/
def messageTypeLoop : ℕ → ℕ → Reader (Option (ℤ × List ℕ))
  | 0, _ => return none
  | fuel + 1, popt => do
    let code ← Reader.read popt
    if code = endOption then return some (-1, [])
    else if code = 53 then
      let type ← Reader.read (popt + 2)
      return some (type.toNat, [popt])
    else
      let oplen ← Reader.read (popt + 1)
      let r ← messageTypeLoop fuel (popt + oplen.toNat + 2)
      return r.map fun r ↦ (r.1, popt :: r.2)

/-- `DhcpMessageType`; `none` when `fuel` options are not enough. -/
def dhcpMessageType (fuel : ℕ) : Reader (Option (ℤ × List ℕ)) := do
  let magic ← Reader.readBytes bpVend 4
  if magic ≠ bootpVendorMagic then return some (-1, []) else messageTypeLoop fuel optionsStart

/-- `BootpVendorFieldProcess` for an option at offset `ext`, as `dhcpOption`. Parameters that are
known already are kept. The boot file size is made from the address of the option, which is
`base + ext`, and not from its data. -/
def bootpVendorField (base ext : ℕ) (p : NetParams) (code : UInt8) (size : ℕ) :
    ℕ × (List UInt8 → NetParams) :=
  let p := { p with netBootFileSize := 0 }
  match code.toNat with
  | 1 => if p.netOurSubnetMask = noAddress then (4, fun data ↦ { p with netOurSubnetMask := data })
    else (0, fun _ ↦ p)
  | 3 => if p.netOurGatewayIP = noAddress then (4, fun data ↦ { p with netOurGatewayIP := data })
    else (0, fun _ ↦ p)
  | 6 => if p.netOurDNSIP = noAddress then (4, fun data ↦ { p with netOurDNSIP := data })
    else (0, fun _ ↦ p)
  | 12 => if first p.netOurHostName = 0 then
      (truncateSz 32 size, fun data ↦ { p with netOurHostName := data })
    else (0, fun _ ↦ p)
  | 13 => (0, fun _ ↦ { p with netBootFileSize :=
      if size = 2 ∨ size = 4 then (base + ext + 2) % 65536 else 0 })
  | 17 => if first p.netOurRootPath = 0 then
      (truncateSz 64 size, fun data ↦ { p with netOurRootPath := data })
    else (0, fun _ ↦ p)
  | 40 => if first p.netOurNISDomain = 0 then
      (truncateSz 32 size, fun data ↦ { p with netOurNISDomain := data })
    else (0, fun _ ↦ p)
  | _ => (0, fun _ ↦ p)

/-- The loop of `BootpVendorProcess` up to `stop`, with the offsets of the options it visits. -/
def bootpVendorLoop (base stop : ℕ) : ℕ → ℕ → NetParams → Reader (NetParams × List ℕ)
  | 0, _, p => return (p, [])
  | fuel + 1, ext, p => do
    if stop ≤ ext then return (p, [])
    else
      let code ← Reader.read ext
      if code = endOption then return (p, [])
      else if code = 0 then bootpVendorLoop base stop fuel (ext + 1) p
      else
        let size ← Reader.read (ext + 1)
        let next := ext + size.toNat + 2
        if next ≤ stop then
          let field := bootpVendorField base ext p code size.toNat
          let data ← Reader.readBytes (ext + 2) field.1
          let r ← bootpVendorLoop base stop fuel next (field.2 data)
          return (r.1, ext :: r.2)
        else bootpVendorLoop base stop fuel next p

/-- `BootpVendorProcess`, called with the length of the whole packet. -/
def bootpVendorProcess (base len : ℕ) (p : NetParams) : Reader (NetParams × List ℕ) :=
  bootpVendorLoop base (optionsStart + len) len optionsStart p

/-- What the handlers do with the options: they look for the cookie first. -/
def withCookie (p : NetParams) (x : Reader (NetParams × List ℕ)) : Reader (NetParams × List ℕ) := do
  let magic ← Reader.readBytes bpVend 4
  if magic = bootpVendorMagic then x else return (p, [])

end UBoot.Net.Bootp
