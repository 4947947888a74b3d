import UBoot.Httpd.Cgi

namespace UBoot.Httpd.Appcall

open Lib.CString Cgi

/-- The bits of `uip_flags`. -/
structure UipFlags where
  ackdata : Bool := false
  newdata : Bool := false
  rexmit : Bool := false
  poll : Bool := false
  close : Bool := false
  abort : Bool := false
  connected : Bool := false
  timedout : Bool := false
deriving DecidableEq

inductive HttpState
  | noget
  | file
  | text
  | func
  | end
deriving DecidableEq

/-- `struct httpd_state`. A pointer into the file system is the text from there on. -/
structure Hs where
  state : HttpState
  count : UInt16
  dataptr : List UInt8
  script : Option (List UInt8)

/-- The files of `fsdata.c`. -/
inductive Page
  | cgiIndex
  | counter
  | notFound
  | error
  | index
deriving DecidableEq

def Page.name : Page → CStr
  | cgiIndex => ascii "/cgi/index"
  | counter => ascii "/counter.html"
  | notFound => ascii "/404.html"
  | error => ascii "/error.html"
  | index => ascii "/index.html"

/-- The contents of the files. The script is the one of `fsdata.c`; the pages are HTTP replies. -/
structure Fs where
  data : Page → List UInt8
  script : data .cgiIndex = ascii "c a\n.\n"
  reply : ∀ page, page ≠ .cgiIndex → hasPrefix (data page) (ascii "HTTP/1.0 ") = true

/-- `fs_strcmp(str1, str2) == 0`. -/
def fsStrcmp : List UInt8 → CStr → Bool
  | _, [] => true
  | [], _ :: _ => false
  | c :: str1, d :: str2 => c = 0x0d || c = 0x0a || (c = d && fsStrcmp str1 str2)

/-- `fs_open`, with the list of files from `FS_ROOT` on. -/
def fsOpen (name : List UInt8) : Option Page :=
  [Page.cgiIndex, .counter, .notFound, .error, .index].find? fun page ↦ fsStrcmp name page.name

/-- The variables of `httpd.c` and `cgi.c`, with `uip_flags` and what `uip_send` was given.
`calls` are the ranges that `upgrade_cgi` took in the calls at the end of `httpd_appcall`, the
last one first. -/
structure App where
  hs : Hs
  board : Board
  vars : Vars
  flags : UipFlags
  send : Option (List UInt8 × UInt16)
  calls : List (List UInt8)

def uipAbort (h : App) : App := { h with flags := { abort := true } }

def uipClose (h : App) : App := { h with flags := { close := true } }

def nextScriptline : List UInt8 → List UInt8
  | [] => []
  | _ :: script => (script.dropWhile (· ≠ 0x0a)).drop 1

section

variable (fs : Fs)

/-- `next_scriptstate()` on a script that starts with a comment line is run again on the next
line, which `n` counts. -/
def nextScriptstate (u : Uninit) (p : Packet) : ℕ → App → Option (List UInt8 × App)
  | 0, _ => none
  | n + 1, h =>
    let script := h.hs.script.getD []
    match script with
    | 0x74 :: _ =>
      some (p.appdata, { h with hs := { h.hs with
        state := .text
        dataptr := script.drop 2
        count := UInt16.ofNat ((script.drop 2).takeWhile (· ≠ 0x0a)).length } })
    | 0x63 :: _ =>
      (upgradeCgi h.board u false p h.vars).map fun (_, appdata, vars) ↦
        (appdata, { h with
          hs := { h.hs with state := .func, dataptr := [], count := 0 }, vars := vars })
    | 0x69 :: _ =>
      match fsOpen (script.drop 2) with
      | none => some (p.appdata, uipAbort { h with hs := { h.hs with state := .file } })
      | some page =>
        some (p.appdata, { h with hs := { h.hs with
          state := .file
          dataptr := fs.data page
          count := UInt16.ofNat (fs.data page).length } })
    | 0x23 :: _ =>
      nextScriptstate u p n
        { h with hs := { h.hs with script := some (nextScriptline script) } }
    | 0x2e :: _ => some (p.appdata, uipClose { h with hs := { h.hs with state := .end } })
    | _ => some (p.appdata, uipAbort h)

/-- The text from the check for `/cgi/` on, where `fsfile` is open. -/
def serve (u : Uninit) (p : Packet) (offset : ℕ) (page : Page) (h : App) :
    Option (List UInt8 × App) :=
  if hasPrefix (p.appdata.drop (4 + offset)) (ascii "/cgi/") then
    nextScriptstate fs u p ((fs.data page).length + 1)
      { h with hs := { h.hs with script := some (fs.data page) } }
  else
    some (p.appdata, { h with hs := {
      state := .file
      script := none
      dataptr := fs.data page
      count := UInt16.ofNat (fs.data page).length } })

/-- An acknowledgement in a state other than `HTTP_FUNC`; `len` is `uip_conn->len`. -/
def acked (u : Uninit) (p : Packet) (len : UInt16) (h : App) : Option (List UInt8 × App) :=
  if h.flags.ackdata then
    let hs :=
      if len ≤ h.hs.count then
        { h.hs with count := h.hs.count - len, dataptr := h.hs.dataptr.drop len.toNat }
      else { h.hs with count := 0 }
    if hs.count = 0 then
      match hs.script with
      | some script =>
        let next := nextScriptline script
        nextScriptstate fs u p (next.length + 1) { h with hs := { hs with script := some next } }
      | none => some (p.appdata, uipClose { h with hs := hs })
    else some (p.appdata, { h with hs := hs })
  else some (p.appdata, h)

/-- `httpd_appcall` from the test of `HTTP_FUNC` on. The jump back to `send_error` is counted
by `n`; `u` has the uninitialised locals of each call of `upgrade_cgi`. -/
def callCgi (offset : ℕ) (len : UInt16) (u : ℕ → Uninit) :
    ℕ → Packet → App → Option (List UInt8 × App)
  | 0, _, _ => none
  | n + 1, p, h =>
    if h.hs.state = .func then
      (upgradeCgi h.board (u n) h.flags.ackdata p h.vars).bind fun (ret, appdata, vars) ↦
        let h := { h with
          vars := vars
          calls := if h.flags.ackdata then h.calls else p.appdata.take p.datalen :: h.calls }
        let p := { p with appdata := appdata }
        if ret = 1 then
          (serve fs (u n) p offset .counter h).bind fun (appdata, h) ↦
            callCgi offset len u n { p with appdata := appdata } h
        else if ret = 2 then
          (serve fs (u n) p offset .error h).bind fun (appdata, h) ↦
            callCgi offset len u n { p with appdata := appdata } h
        else some (appdata, h)
    else
      (acked fs (u n) p len h).map fun (appdata, h) ↦
        if h.hs.state ≠ .func ∧ h.flags.poll = false then
          (appdata, { h with send := some (h.hs.dataptr, h.hs.count) })
        else (appdata, h)

def isDelimiter (c : UInt8) : Bool := c = 0x20 || c = 0x0d || c = 0x0a

/-- The end of the file name in the request line becomes a NUL. -/
def terminateUrl (offset : ℕ) (appdata : List UInt8) : List UInt8 :=
  let start := 4 + 2 * offset
  match ((appdata.drop start).take 36).findIdx? isDelimiter with
  | some k => appdata.set (start + k) 0
  | none => appdata

/-- The page of a request, and `httpd_no_hwid` after it. -/
def openPage (offset : ℕ) (appdata : List UInt8) (h : App) : Page × App :=
  let url := appdata.drop (4 + offset)
  if url[0]? = some 0x2f ∧ url[1]? = some 0 then (.index, h)
  else if hasPrefix url (ascii "/test_nohwid.html") && url[17]? == some 0 then
    (.index, { h with board := { h.board with httpdNoHwid := true } })
  else ((fsOpen url).getD .notFound, h)

/-- `httpd_appcall` on port 80. -/
def httpdAppcall (n : ℕ) (len : UInt16) (u : ℕ → Uninit) (p : Packet) (h : App) :
    Option (List UInt8 × App) :=
  if h.flags.connected then
    some (p.appdata, { h with hs := { h.hs with state := .noget, count := 0 } })
  else if h.flags.poll then
    let h' := { h with hs := { h.hs with count := h.hs.count + 1 } }
    some (p.appdata, if h.hs.count ≥ 10 then uipAbort h' else h')
  else if h.flags.newdata = true ∧ h.hs.state = .noget then
    let get := hasPrefix p.appdata (ascii "GET ")
    if !get && !hasPrefix p.appdata (ascii "POST ") then some (p.appdata, uipAbort h)
    else
      let offset := if get then 0 else 1
      let appdata := terminateUrl offset p.appdata
      let (page, h) := openPage offset appdata h
      (serve fs (u n) { p with appdata := appdata } offset page h).bind fun (appdata, h) ↦
        callCgi fs offset len u n { p with appdata := appdata } h
  else callCgi fs 0 len u n p h

end

end UBoot.Httpd.Appcall
