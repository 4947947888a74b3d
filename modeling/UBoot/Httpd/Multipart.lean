import UBoot.Httpd.Upload

namespace UBoot.Httpd.Multipart

open Lib.CString LibGeneric.Vsprintf Cgi Appcall RequestLine

/-- A header line without its terminator. -/
structure IsLine (l : CStr) : Prop where
  nonempty : l ≠ []
  eolFree : EolFree l
  nulFree : NulFree l

instance (l : CStr) : Decidable (IsLine l) :=
  decidable_of_iff (l ≠ [] ∧ EolFree l ∧ NulFree l)
    ⟨fun h ↦ ⟨h.1, h.2.1, h.2.2⟩, fun h ↦ ⟨h.nonempty, h.eolFree, h.nulFree⟩⟩

theorem lineAt_line {l : CStr} (hl : IsLine l) (pre rest : List UInt8) :
    lineAt (pre ++ (l ++ 0 :: rest)) pre.length = l :=
  lineAt_append pre l rest hl.nulFree

/-- What a header line does, by its text. -/
def headerText (l : CStr) (g : Vars) : Vars :=
  if hasPrefix l (ascii "POST /cgi/index") then
    { g with totalSize := 0, totalFilesize := 0, totalPackets := 1 }
  else if hasPrefix l (ascii "User-Agent: ") then userAgent (l.drop 12) g
  else if hasPrefix l (ascii "Content-Length:") then
    { g with totalFilesize := simpleStrtol (l.drop 16) 0 }
  else g

/-- The text from the 17th byte on ends at the second NUL at the latest. -/
theorem lineAt_drop {l : CStr} (hl : IsLine l) (pre rest : List UInt8) (h : 15 ≤ l.length) :
    lineAt (pre ++ (l ++ 0 :: 0 :: rest)) (pre.length + 16) = l.drop 16 := by
  rcases Nat.lt_or_ge l.length 16 with h16 | h16
  · have hd : (pre ++ (l ++ 0 :: 0 :: rest)).drop (pre.length + 16) = 0 :: rest := by
      rw [show pre.length + 16 = (pre ++ l ++ [0]).length by simp; omega,
        show pre ++ (l ++ 0 :: 0 :: rest) = (pre ++ l ++ [0]) ++ 0 :: rest by simp,
        List.drop_left]
    rw [lineAt, hd, List.drop_eq_nil_of_le (by omega)]
    simp
  · have hn : NulFree (l.drop 16) := fun c hc ↦ hl.nulFree c (List.mem_of_mem_drop hc)
    have ha := lineAt_append (pre ++ l.take 16) (l.drop 16) (0 :: rest) hn
    have hl16 : (pre ++ l.take 16).length = pre.length + 16 := by
      simp [Nat.min_eq_left h16]
    rw [hl16, List.append_assoc, ← List.append_assoc (l.take 16), List.take_append_drop] at ha
    exact ha

theorem headerLine_text {l : CStr} (hl : IsLine l) (pre rest : List UInt8) (g : Vars) :
    headerLine (pre ++ (l ++ 0 :: 0 :: rest)) pre.length g = headerText l g := by
  simp only [headerLine, headerText, lineAt_line hl]
  split_ifs with h1 h2 h3
  · rfl
  · rfl
  · have hlen : 15 ≤ l.length :=
      (List.isPrefixOf_iff_prefix.mp h3).length_le.trans' (by decide)
    rw [lineAt_drop hl pre rest hlen]
  · rfl

/-- The header lines that are read by the first loop. -/
def readHeader (ls : List CStr) (g : Vars) : Vars := ls.foldl (fun g l ↦ headerText l g) g

/-- No line makes the first loop stop. -/
def Unstopped : List CStr → Vars → Prop
  | [], _ => True
  | l :: ls, g =>
    (g.supportFireFox && contains l (ascii "Referer")) = false ∧ Unstopped ls (headerText l g)

theorem headerLoop_lines (ls : List CStr) (hls : ∀ l ∈ ls, IsLine l) (n len : ℕ)
    (pre rest : List UInt8) (g : Vars) (hlen : pre.length + (lines crlf ls).length ≤ len)
    (hg : Unstopped ls g) :
    headerLoop (ls.length + n) ⟨pre ++ (lines crlf ls ++ rest), len, pre.length⟩ g =
      headerLoop n ⟨pre ++ (lines [0, 0] ls ++ rest), len, pre.length + (lines crlf ls).length⟩
        (readHeader ls g) := by
  induction ls generalizing pre g with
  | nil => simp [readHeader]
  | cons l ls ih =>
    have hl := hls l (by simp)
    simp only [lines_cons, List.length_append, crlf_length] at hlen
    have hline := getRequestLine_crlf pre l (lines crlf ls ++ rest) len hl.eolFree (by omega)
    have hr := ih (fun m hm ↦ hls m (by simp [hm])) (pre ++ (l ++ [0, 0])) (headerText l g)
      (by simp only [List.length_append, List.length_cons, List.length_nil]; omega) hg.2
    rw [show (l :: ls).length + n = ls.length + n + 1 by simp; omega, headerLoop]
    simp only [lines_cons, List.append_assoc]
    rw [hline]
    simp only [Option.bind_some, lineAt_line hl, if_neg hl.nonempty, hg.1, Bool.false_eq_true,
      if_false, headerLine_text hl]
    simp only [List.append_assoc, List.cons_append, List.nil_append, List.length_append,
      List.length_cons, List.length_nil, crlf_length, readHeader, List.foldl_cons] at hr ⊢
    rw [← Nat.add_assoc] at hr
    rw [hr]
    congr 2
    omega

theorem unstopped_of_noReferer (ls : List CStr) (g : Vars)
    (h : ∀ l ∈ ls, contains l (ascii "Referer") = false) : Unstopped ls g := by
  induction ls generalizing g with
  | nil => trivial
  | cons l ls ih =>
    refine ⟨?_, ih _ (fun m hm ↦ h m (by simp [hm]))⟩
    rw [h l (by simp), Bool.and_false]

/-- The browsers that the parser distinguishes; every other one is taken for the first. -/
inductive Browser
  | internetExplorer
  | opera
  | firefox
  | chrome
  | safari
deriving DecidableEq

def agent (cp : CStr) : Browser :=
  if hasPrefix cp (ascii "Mozilla/5.0") then
    if contains cp (ascii "Firefox") then .firefox
    else if contains cp (ascii "Chrome") then .chrome
    else if contains cp (ascii "Safari") then .safari
    else .internetExplorer
  else if hasPrefix cp (ascii "Opera") then .opera
  else .internetExplorer

/-- The variables with the flag of a browser set. -/
def setAgent (browser : Browser) (g : Vars) : Vars :=
  { g with
    supportFireFox := g.supportFireFox || decide (browser = .firefox)
    supportSafari := g.supportSafari || decide (browser = .safari)
    supportChrome := g.supportChrome || decide (browser = .chrome)
    supportOpera := g.supportOpera || decide (browser = .opera) }

theorem userAgent_eq (cp : CStr) (g : Vars) : userAgent cp g = setAgent (agent cp) g := by
  rcases g with ⟨⟩
  unfold userAgent agent
  split_ifs <;> simp [setAgent]

theorem setAgent_setAgent (browser : Browser) (g : Vars) :
    setAgent browser (setAgent browser g) = setAgent browser g := by
  simp [setAgent]

def lengthLine (n : ℕ) : CStr := ascii "Content-Length: " ++ decimal n

def isAgent (l : CStr) : Bool := hasPrefix l (ascii "User-Agent: ")

def isLength (l : CStr) : Bool := hasPrefix l (ascii "Content-Length:")

/-- A header line of a request of `browser` with `n` bytes of content. -/
structure IsHeader (browser : Browser) (n : ℕ) (l : CStr) : Prop where
  isLine : IsLine l
  notPost : hasPrefix l (ascii "POST /cgi/index") = false
  agentIs : isAgent l = true → agent (l.drop 12) = browser
  lengthIs : isLength l = true → l = lengthLine n

theorem lengthLine_drop (n : ℕ) : (lengthLine n).drop 16 = decimal n := by
  rw [lengthLine, show 16 = (ascii "Content-Length: ").length by decide, List.drop_left]

theorem lengthLine_notAgent (n : ℕ) : isAgent (lengthLine n) = false := by
  rw [isAgent, hasPrefix, lengthLine, show ascii "User-Agent: " = 0x55 :: ascii "ser-Agent: " by decide,
    show ascii "Content-Length: " = 0x43 :: ascii "ontent-Length: " by decide, List.cons_append,
    List.isPrefixOf]
  rfl

theorem lengthLine_isLine (n : ℕ) : IsLine (lengthLine n) := by
  have hdigit : ∀ c ∈ decimal n, c ≠ 0x0a ∧ c ≠ 0x0d ∧ c ≠ 0 := by
    intro c hc
    obtain ⟨d, hd, rfl⟩ := List.mem_map.mp hc
    have hlt : d < 10 := Nat.digits_lt_base (by decide) (List.mem_reverse.mp hd)
    have hall : ∀ d < 10, UInt8.ofNat (0x30 + d) ≠ 0x0a ∧ UInt8.ofNat (0x30 + d) ≠ 0x0d ∧
        UInt8.ofNat (0x30 + d) ≠ 0 := by decide
    exact hall d hlt
  refine ⟨?_, ?_, ?_⟩
  · rw [lengthLine]
    exact List.append_ne_nil_of_left_ne_nil (by decide) _
  · exact EolFree.append (by decide) fun c hc ↦ ⟨(hdigit c hc).1, (hdigit c hc).2.1⟩
  · intro c hc
    rcases List.mem_append.mp hc with h | h
    · exact (show NulFree (ascii "Content-Length: ") by decide) c h
    · exact (hdigit c h).2.2

theorem isLength_lengthLine (n : ℕ) : isLength (lengthLine n) = true := by
  rw [isLength, hasPrefix, List.isPrefixOf_iff_prefix, lengthLine,
    show ascii "Content-Length: " = ascii "Content-Length:" ++ [0x20] by decide, List.append_assoc]
  exact List.prefix_append _ _

section

variable {browser : Browser} {n : ℕ} (hn : 0 < n)

include hn

theorem headerText_eq {l : CStr} (hl : IsHeader browser n l) (g : Vars) :
    headerText l g =
      if isAgent l then setAgent browser g
      else if isLength l then { g with totalFilesize := UInt32.ofNat n } else g := by
  rw [headerText, hl.notPost, if_neg (by simp), ← isAgent, ← isLength]
  by_cases ha : isAgent l = true
  · rw [if_pos ha, if_pos ha, userAgent_eq, hl.agentIs ha]
  · rw [if_neg ha, if_neg ha]
    by_cases hc : isLength l = true
    · rw [if_pos hc, if_pos hc, hl.lengthIs hc, lengthLine_drop, simpleStrtol_decimal hn]
    · rw [if_neg hc, if_neg hc]

/-- The header sets the flag of its browser and the length of its content. -/
theorem readHeader_eq {ls : List CStr} (hls : ∀ l ∈ ls, IsHeader browser n l) (g : Vars) :
    readHeader ls g =
      let g' := if ls.any isAgent then setAgent browser g else g
      if ls.any isLength then { g' with totalFilesize := UInt32.ofNat n } else g' := by
  induction ls generalizing g with
  | nil => rfl
  | cons l ls ih =>
    have hl := hls l (by simp)
    have hr := ih (fun m hm ↦ hls m (by simp [hm])) (headerText l g)
    rw [readHeader, List.foldl_cons, ← readHeader, hr, headerText_eq hn hl]
    by_cases ha : isAgent l = true
    · have hc : isLength l = false := by
        by_contra hc
        have := hl.lengthIs (by simpa using hc)
        rw [this, lengthLine_notAgent] at ha
        cases ha
      simp only [List.any_cons, ha, hc, if_true, Bool.true_or, Bool.false_or]
      by_cases h : ls.any isAgent = true
      · simp only [h, if_true, setAgent_setAgent]
      · simp only [h, Bool.false_eq_true, if_false]
    · simp only [List.any_cons, ha, Bool.false_eq_true, if_false, Bool.false_or]
      by_cases hc : isLength l = true
      · simp only [hc, if_true, Bool.true_or]
        by_cases h : ls.any isAgent = true <;> by_cases h' : ls.any isLength = true <;>
          simp [h, h', setAgent]
      · simp only [hc, Bool.false_eq_true, if_false, Bool.false_or]

theorem readHeader_packets {ls : List CStr} (hls : ∀ l ∈ ls, IsHeader browser n l) (g : Vars) :
    (readHeader ls g).totalPackets = g.totalPackets := by
  rw [readHeader_eq hn hls]
  split_ifs <;> rfl

end

def postUrl : CStr := ascii "POST /cgi/index"

theorem terminateUrl_post (rest : List UInt8) :
    terminateUrl 1 (postUrl ++ 0x20 :: rest) = postUrl ++ 0 :: rest := by
  rfl

theorem terminateUrl_lines (version rest : List UInt8) (ls : List CStr) :
    terminateUrl 1 (lines crlf ((postUrl ++ 0x20 :: version) :: ls) ++ rest) =
      lines crlf ((postUrl ++ 0 :: version) :: ls) ++ rest := by
  simp only [lines_cons, List.append_assoc, List.cons_append]
  exact terminateUrl_post _

/-- The first loop on the request line, whose URL has been terminated. -/
theorem headerLoop_post {version : List UInt8} (hv : EolFree version) (ls : List CStr)
    (hls : ∀ l ∈ ls, IsLine l) (n len : ℕ) (rest : List UInt8) (g : Vars)
    (hlen : (lines crlf ((postUrl ++ 0 :: version) :: ls)).length ≤ len)
    (hg : Unstopped ls { g with totalSize := 0, totalFilesize := 0, totalPackets := 1 }) :
    headerLoop (ls.length + n + 1)
        ⟨lines crlf ((postUrl ++ 0 :: version) :: ls) ++ rest, len, 0⟩ g =
      headerLoop n
        ⟨lines [0, 0] ((postUrl ++ 0 :: version) :: ls) ++ rest, len,
          (lines crlf ((postUrl ++ 0 :: version) :: ls)).length⟩
        (readHeader ls { g with totalSize := 0, totalFilesize := 0, totalPackets := 1 }) := by
  have hpost : NulFree postUrl := by decide
  have hfree : EolFree (postUrl ++ 0 :: version) := by
    refine EolFree.append (by decide) ?_
    exact EolFree.append (l := [0]) (by decide) hv
  simp only [lines_cons, List.length_append, crlf_length] at hlen
  have hline := getRequestLine_crlf [] (postUrl ++ 0 :: version) (lines crlf ls ++ rest) len hfree
    (by simp only [List.length_append, List.length_nil]; omega)
  have hat : ∀ tail, lineAt (postUrl ++ 0 :: tail) 0 = postUrl := fun tail ↦ by
    simpa using lineAt_append [] postUrl tail hpost
  have hr := headerLoop_lines ls hls n len (postUrl ++ 0 :: version ++ [0, 0]) rest
    { g with totalSize := 0, totalFilesize := 0, totalPackets := 1 }
    (by simp only [List.length_append, List.length_cons, List.length_nil] at hlen ⊢; omega) hg
  rw [headerLoop]
  simp only [lines_cons, List.append_assoc, List.cons_append, List.nil_append, List.length_nil]
    at hline hr ⊢
  rw [hline]
  have href : contains postUrl (ascii "Referer") = false := by decide
  have hne : postUrl ≠ [] := by decide
  have hpre : hasPrefix postUrl (ascii "POST /cgi/index") = true := by decide
  simp only [Option.bind_some, hat, if_neg hne, href, Bool.and_false, Bool.false_eq_true, if_false,
    headerLine, hpre, if_true]
  simp only [List.length_append, List.length_cons, List.length_nil, crlf_length] at hr ⊢
  convert hr using 3 <;> omega

/-- A form with one file, as a browser sends it. -/
structure Form where
  browser : Browser
  version : List UInt8
  header : List CStr
  boundary : CStr
  disposition : CStr
  contentType : CStr
  file : List UInt8

namespace Form

variable (f : Form)

def head : List UInt8 := lines crlf ((postUrl ++ 0x20 :: f.version) :: f.header) ++ crlf

def part : List UInt8 := lines crlf [f.boundary, f.disposition, f.contentType] ++ crlf

def trailer : List UInt8 := crlf ++ (f.boundary ++ (ascii "--" ++ crlf))

def contentLength : ℕ := f.part.length + f.file.length + f.trailer.length

def stream : List UInt8 := f.head ++ (f.part ++ (f.file ++ f.trailer))

end Form

/-- The dashes that start the boundary line of a browser. -/
def Browser.boundaryIs : Browser → CStr → Prop
  | internetExplorer, l => hasPrefix l (dashes 29) = true
  | opera, l => hasPrefix l (dashes 12) = true
  | firefox, l => hasPrefix l (dashes 29) = true
  | chrome, l => hasPrefix l (dashes 6) = true ∧ hasPrefix l (dashes 10) = false
  | safari, l => hasPrefix l (dashes 6) = true ∧ hasPrefix l (dashes 10) = false

structure Form.WellFormed (f : Form) : Prop where
  version : EolFree f.version
  header : ∀ l ∈ f.header, IsHeader f.browser f.contentLength l
  announced : f.browser = .internetExplorer ∨ f.header.any isAgent = true
  sized : lengthLine f.contentLength ∈ f.header
  boundary : IsLine f.boundary
  boundaryIs : f.browser.boundaryIs f.boundary
  disposition : IsLine f.disposition
  notDashes : hasPrefix f.disposition (dashes 6) = false
  notContentType : hasPrefix f.disposition (ascii "Content-Type:") = false
  contentType : IsLine f.contentType
  isContentType : hasPrefix f.contentType (ascii "Content-Type:") = true

end UBoot.Httpd.Multipart
