import UBoot.Lib.CString
import UBoot.LibGeneric.Vsprintf

namespace UBoot.Httpd.Cgi

open Lib.CString LibGeneric.Vsprintf

def loaderHwidLen : ℕ := 22

def kernelHwidLen : ℕ := 24

def hwidLen : ℕ := 24

def cfgFlashBase : UInt32 := 0xbf000000

def kernelLocation : UInt32 := cfgFlashBase + 0x30000

def bootImgUpperBound : UInt32 := 128 * 1024

def backupEraseStartSector : ℕ := 0

def backupEraseEndSector : ℕ := 0x3

def normalEraseStartSector : ℕ := 0x3

def normalEraseEndSector : ℕ := 0x3f

/-- The variables of `cgi.c`, with the static `shift` of `upgrade_cgi` and the staging area
that `ptr` points to. -/
structure Vars where
  contentLength : ℕ
  startSector : ℕ
  endSector : ℕ
  totalSize : UInt32
  totalFilesize : UInt32
  totalPackets : ℕ
  flashBase : UInt32
  supportFireFox : Bool
  supportSafari : Bool
  supportChrome : Bool
  supportOpera : Bool
  bufferPtr : ℕ
  shift : ℕ
  flashwrite : Bool
  hwiderror : Bool
  ptr : ℕ → UInt8

/-- The values of the initialisers; `ram` is what the staging area holds at that time. -/
def startUp (ram : ℕ → UInt8) : Vars where
  contentLength := 0
  startSector := 0
  endSector := 0
  totalSize := 0
  totalFilesize := 0
  totalPackets := 0
  flashBase := kernelLocation
  supportFireFox := false
  supportSafari := false
  supportChrome := false
  supportOpera := false
  bufferPtr := 0
  shift := 0
  flashwrite := false
  hwiderror := false
  ptr := ram

/-- `httpd_no_hwid` and the flash from `HWID_LOCATION` on. -/
structure Board where
  httpdNoHwid : Bool
  hwid : ℕ → UInt8

/-- `uip_appdata` up to the end of `uip_buf`, and `uip_datalen()`. The bytes behind `datalen`
are those of earlier packets. -/
structure Packet where
  appdata : List UInt8
  datalen : ℕ

def lineAt (appdata : List UInt8) (i : ℕ) : CStr := (appdata.drop i).takeWhile (· ≠ 0)

/-- `uip_appdata` with the variables `request_len` and `request_idx`. -/
structure Request where
  appdata : List UInt8
  requestLen : ℕ
  requestIdx : ℕ

/-- The position of the first `\n` or `\r` among the `n` bytes from `idx` on. A read behind
the end of `uip_buf` is `none`. -/
def findEol (appdata : List UInt8) : ℕ → ℕ → Option (Option ℕ)
  | 0, _ => some none
  | n + 1, idx =>
    appdata[idx]?.bind fun c ↦
      if c = 0x0a ∨ c = 0x0d then some (some idx) else findEol appdata n (idx + 1)

/-- `get_request_line(&request_len, &request_idx)`: the index of the line it returns. -/
def getRequestLine (r : Request) : Option (Option ℕ × Request) :=
  (findEol r.appdata (r.requestLen - r.requestIdx) r.requestIdx).bind fun
    | none => some (none, { r with requestIdx := max r.requestIdx r.requestLen })
    | some e =>
      if r.appdata[e]? = some 0x0d ∧ e + 1 < r.requestLen then
        r.appdata[e + 1]?.map fun c ↦
          if c = 0x0a then
            (some r.requestIdx,
              { r with appdata := (r.appdata.set e 0).set (e + 1) 0, requestIdx := e + 2 })
          else (some r.requestIdx, { r with appdata := r.appdata.set e 0, requestIdx := e + 1 })
      else some (some r.requestIdx, { r with appdata := r.appdata.set e 0, requestIdx := e + 1 })

def userAgent (cp : CStr) (g : Vars) : Vars :=
  if hasPrefix cp (ascii "Mozilla/5.0") then
    if contains cp (ascii "Firefox") then { g with supportFireFox := true }
    else if contains cp (ascii "Chrome") then { g with supportChrome := true }
    else if contains cp (ascii "Safari") then { g with supportSafari := true }
    else g
  else if hasPrefix cp (ascii "Opera") then { g with supportOpera := true }
  else g

/-- The header line at `i`. -/
def headerLine (appdata : List UInt8) (i : ℕ) (g : Vars) : Vars :=
  let line := lineAt appdata i
  if hasPrefix line (ascii "POST /cgi/index") then
    { g with totalSize := 0, totalFilesize := 0, totalPackets := 1 }
  else if hasPrefix line (ascii "User-Agent: ") then userAgent (line.drop 12) g
  else if hasPrefix line (ascii "Content-Length:") then
    { g with totalFilesize := simpleStrtol (lineAt appdata (i + 16)) 0 }
  else g

/-- The first `while` loop. Every round moves `request_idx`, so `request_len + 1` rounds are
enough. -/
def headerLoop : ℕ → Request → Vars → Option (Request × Vars)
  | 0, _, _ => none
  | n + 1, r, g =>
    (getRequestLine r).bind fun
      | (none, r') => some (r', g)
      | (some i, r') =>
        let line := lineAt r'.appdata i
        if line = [] then some (r', g)
        else if g.supportFireFox && contains line (ascii "Referer") then some (r', g)
        else headerLoop n r' (headerLine r'.appdata i g)

/-- `memcpy(ptr + dst, src, len)`. -/
def memcpy (ptr : ℕ → UInt8) (dst : ℕ) (src : List UInt8) : ℕ → UInt8 :=
  fun k ↦ if k < dst then ptr k else src.getD (k - dst) (ptr k)

/-- The start of the file behind the part header that ends at `request_idx + 2`, where `base`
is what the code adds again to the part of `request_idx` that `Content-Length` does not count.
A packet that ends before it makes the length of the `memcpy` negative. -/
def stageFirst (datalen base : ℕ) (r : Request) (g : Vars) : Option (List UInt8 × Vars) :=
  if datalen < r.requestIdx + 2 then none
  else
    let totalFilesize :=
      if datalen ≠ 1446 then
        g.totalFilesize - UInt32.ofNat (r.requestIdx + 2) - UInt32.ofNat g.contentLength - 6
          + UInt32.ofNat base
      else g.totalFilesize - UInt32.ofNat (r.requestIdx + 2)
    let src := (r.appdata.drop (r.requestIdx + 2)).take (datalen - (r.requestIdx + 2))
    some (r.appdata, { g with
      totalFilesize := totalFilesize
      totalSize := UInt32.ofNat (datalen - (r.requestIdx + 2))
      ptr := memcpy g.ptr 0 src
      bufferPtr := datalen - (r.requestIdx + 2)
      totalPackets := g.totalPackets + 1 })

/-- The `Content-Length:` line in a packet of Firefox, where the boundary follows after the
empty line. `strlen` of a line that is not there is `none`. -/
def firefoxBody (datalen i : ℕ) (r : Request) (g : Vars) : Option (List UInt8 × Vars) :=
  let g := { g with totalFilesize := simpleStrtol (lineAt r.appdata (i + 16)) 0 }
  let tmpIdx := r.requestIdx + 2
  (getRequestLine { r with requestIdx := tmpIdx }).bind fun
    | (none, _) => none
    | (some j, r) =>
      let g := { g with contentLength := (lineAt r.appdata j).length }
      (getRequestLine r).bind fun (_, r) ↦
        (getRequestLine r).bind fun (_, r) ↦ stageFirst datalen tmpIdx r g

def dashes (n : ℕ) : CStr := List.replicate n 0x2d

/-- The boundary lines of Internet Explorer, Opera and Chrome. -/
def boundaryLine (line : CStr) (g : Vars) : Vars :=
  if hasPrefix line (dashes 29) then { g with contentLength := line.length }
  else if hasPrefix line (dashes 12) then { g with contentLength := line.length }
  else if hasPrefix line (dashes 6) then { g with contentLength := line.length }
  else g

/-- The second `while` loop. -/
def bodyLoop (datalen : ℕ) : ℕ → Request → Vars → Option (List UInt8 × Vars)
  | 0, _, _ => none
  | n + 1, r, g =>
    (getRequestLine r).bind fun
      | (none, r') => some (r'.appdata, g)
      | (some i, r') =>
        let line := lineAt r'.appdata i
        if g.supportSafari && g.contentLength == 0 then
          some (r'.appdata, { g with
            totalFilesize := g.totalFilesize - UInt32.ofNat (r'.requestLen + (r'.requestIdx + 4))
            totalSize := 0
            totalPackets := 3 })
        else if line = [] then some (r'.appdata, g)
        else if g.supportFireFox then
          if hasPrefix line (ascii "POST /cgi/index") then bodyLoop datalen n r' { g with shift := 1 }
          else if hasPrefix line (ascii "Content-Length:") then firefoxBody datalen i r' g
          else bodyLoop datalen n r' g
        else
          let g := boundaryLine line g
          if hasPrefix line (ascii "Content-Type:") then stageFirst datalen g.shift r' g
          else bodyLoop datalen n r' g

/-- The boundary behind the header of one packet, or the start of the packet. `r` is `none`
where `request_idx` points in front of `uip_appdata`. -/
def findBoundary (datalen : ℕ) (appdata : List UInt8) (r : Option Request) (g : Vars) :
    Option (Request × Vars) :=
  let restart (appdata : List UInt8) : Option (Request × Vars) :=
    some (⟨appdata, datalen, 0⟩, { g with shift := 0 })
  if g.supportFireFox then restart appdata
  else r.bind fun r ↦ (getRequestLine r).bind fun
    | (none, r') => restart r'.appdata
    | (some i, r') =>
      let line := lineAt r'.appdata i
      if hasPrefix line (ascii "----------") then
        some (r', { g with shift := r.requestIdx, contentLength := line.length })
      else restart r'.appdata

/-- `strncmp(s, t, n) == 0`. -/
def strncmpEq : ℕ → (ℕ → UInt8) → (ℕ → UInt8) → Bool
  | 0, _, _ => true
  | n + 1, s, t =>
    if s 0 ≠ t 0 then false
    else if s 0 = 0 then true
    else strncmpEq n (fun k ↦ s (k + 1)) (fun k ↦ t (k + 1))

/-- The checks on a complete image, with the value that `upgrade_cgi` returns. -/
def complete (b : Board) (g : Vars) : ℕ × Vars :=
  let hwidError := { g with totalSize := 0, totalFilesize := 0, totalPackets := 0, hwiderror := true }
  if g.totalFilesize ≤ 512 * 1024 then
    let imageHWID := fun k ↦ g.ptr (0x400 + k)
    if g.totalFilesize > bootImgUpperBound then (2, g)
    else if !b.httpdNoHwid && !strncmpEq loaderHwidLen imageHWID b.hwid then (2, hwidError)
    else (1, { g with
      startSector := backupEraseStartSector
      endSector := backupEraseEndSector
      flashBase := cfgFlashBase
      flashwrite := true })
  else
    let imageHWID := fun k ↦ g.ptr (g.totalFilesize.toNat - hwidLen + k)
    if !b.httpdNoHwid && !strncmpEq kernelHwidLen imageHWID b.hwid then (2, hwidError)
    else (1, { g with
      startSector := normalEraseStartSector
      endSector := normalEraseEndSector
      flashBase := kernelLocation
      flashwrite := true })

def stage (p : Packet) (g : Vars) : Vars :=
  { g with
    ptr := memcpy g.ptr g.bufferPtr (p.appdata.take p.datalen)
    bufferPtr := g.bufferPtr + p.datalen }

/-- A packet of the data phase. -/
def dataPacket (b : Board) (p : Packet) (g : Vars) : ℕ × Vars :=
  let g := { g with totalSize := g.totalSize + UInt32.ofNat p.datalen }
  if g.totalSize < g.totalFilesize then
    if g.shift ≠ 0 then
      (0, { g with totalSize := g.totalSize - UInt32.ofNat p.datalen, shift := 0 })
    else (0, stage p g)
  else complete b (stage p g)

/-- `upgrade_cgi` behind its first `if`, where `r` is what `request_len` and `request_idx`
hold. -/
def upgradeBody (b : Board) (p : Packet) (r : Option Request) (g : Vars) :
    Option (ℕ × List UInt8 × Vars) :=
  if g.totalPackets = 2 then
    (findBoundary p.datalen p.appdata r g).bind fun (r, g) ↦
      (bodyLoop p.datalen (p.datalen + 1) r g).map fun (appdata, g) ↦ (0, appdata, g)
  else if (g.totalSize ≠ 0 ∨ g.supportSafari = true) ∧ g.totalPackets = 3 then
    let (ret, g) := dataPacket b p g
    some (ret, p.appdata, g)
  else some (0, p.appdata, g)

/-- What the uninitialised `request_len` and `request_idx` hold on entry. -/
structure Uninit where
  requestLen : ℤ
  requestIdx : ℤ

def Uninit.request (u : Uninit) (appdata : List UInt8) : Option Request :=
  if u.requestLen ≤ u.requestIdx then some ⟨appdata, 0, 0⟩
  else if 0 ≤ u.requestIdx then some ⟨appdata, u.requestLen.toNat, u.requestIdx.toNat⟩
  else none

/-- `upgrade_cgi(next)` on a packet: the value it returns, the packet buffer and the variables
after it. `none` is a call that does not return. -/
def upgradeCgi (b : Board) (u : Uninit) (next : Bool) (p : Packet) (g : Vars) :
    Option (ℕ × List UInt8 × Vars) :=
  if next then some (1, p.appdata, g)
  else if g.totalPackets = 0 then
    (headerLoop (p.datalen + 1) ⟨p.appdata, p.datalen, 0⟩ g).bind fun (r, g) ↦
      upgradeBody b { p with appdata := r.appdata } (some r)
        { g with totalPackets := g.totalPackets + 1 }
  else upgradeBody b p (u.request p.appdata) g

end UBoot.Httpd.Cgi
