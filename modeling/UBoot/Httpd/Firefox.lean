import UBoot.Httpd.PartHeader

namespace UBoot.Httpd.Firefox

open Lib.CString LibGeneric.Vsprintf Cgi Appcall RequestLine Upload Multipart PartHeader

/-- A header line that the second loop passes by. -/
structure IsOther (l : CStr) : Prop where
  isLine : IsLine l
  notPost : hasPrefix l (ascii "POST /cgi/index") = false
  notLength : isLength l = false

section

variable (datalen len : ℕ) {g : Vars} (hff : g.supportFireFox = true)
  (hsaf : g.supportSafari = false)

include hff hsaf

theorem bodyLoop_other {l : CStr} (hl : IsOther l) (n : ℕ) (pre rest : List UInt8)
    (hlen : pre.length + l.length + 2 ≤ len) :
    bodyLoop datalen (n + 1) ⟨pre ++ (l ++ (crlf ++ rest)), len, pre.length⟩ g =
      bodyLoop datalen n ⟨pre ++ (l ++ 0 :: 0 :: rest), len, pre.length + l.length + 2⟩ g := by
  rw [bodyLoop, getRequestLine_crlf pre l rest len hl.isLine.eolFree hlen]
  have hnl := hl.notLength
  rw [isLength] at hnl
  simp only [Option.bind_some, hsaf, Bool.false_and, Bool.false_eq_true, if_false,
    lineAt_line hl.isLine, if_neg hl.isLine.nonempty, hff, if_true, hl.notPost, hnl]

theorem bodyLoop_others {ls : List CStr} (hls : ∀ l ∈ ls, IsOther l) (n : ℕ)
    (pre rest : List UInt8) (hlen : pre.length + (lines crlf ls).length ≤ len) :
    bodyLoop datalen (ls.length + n) ⟨pre ++ (lines crlf ls ++ rest), len, pre.length⟩ g =
      bodyLoop datalen n
        ⟨pre ++ (lines [0, 0] ls ++ rest), len, pre.length + (lines crlf ls).length⟩ g := by
  induction ls generalizing pre with
  | nil => simp
  | cons l ls ih =>
    simp only [lines_cons, List.length_append, crlf_length] at hlen
    have hr := ih (fun m hm ↦ hls m (by simp [hm])) (pre ++ (l ++ [0, 0]))
      (by simp only [List.length_append, List.length_cons, List.length_nil]; omega)
    have h1 := bodyLoop_other datalen len hff hsaf (hls l (by simp))
      (ls.length + n) pre (lines crlf ls ++ rest) (by omega)
    rw [show (l :: ls).length + n = ls.length + n + 1 by simp; omega]
    simp only [lines_cons, List.append_assoc, List.cons_append, List.nil_append,
      List.length_append, List.length_cons, List.length_nil, crlf_length] at h1 hr ⊢
    rw [h1, Nat.add_assoc, hr]
    congr 2
    omega

/-- The lines before have been read: what is left of the header starts with the request line. -/
theorem bodyLoop_postUrl (n : ℕ) (l rest : List UInt8) (hl : EolFree l)
    (hlen : postUrl.length + 1 + l.length + 2 ≤ len) :
    bodyLoop datalen (n + 1) ⟨postUrl ++ 0 :: l ++ (crlf ++ rest), len, 0⟩ g =
      bodyLoop datalen n ⟨postUrl ++ 0 :: l ++ 0 :: 0 :: rest, len, postUrl.length + 1 + l.length + 2⟩
        { g with shift := 1 } := by
  have hfree : EolFree (postUrl ++ 0 :: l) :=
    EolFree.append (by decide) (EolFree.append (l := [0]) (by decide) hl)
  have hget := getRequestLine_crlf [] (postUrl ++ 0 :: l) rest len hfree
    (by simp only [List.length_append, List.length_cons, List.length_nil]; omega)
  have hat : ∀ tail, lineAt (postUrl ++ 0 :: tail) 0 = postUrl := fun tail ↦ by
    simpa using lineAt_append [] postUrl tail (by decide)
  have hpre : hasPrefix postUrl (ascii "POST /cgi/index") = true := by decide
  have hne : postUrl ≠ [] := by decide
  simp only [List.nil_append, List.length_nil, Nat.zero_add, List.length_append, List.length_cons]
    at hget
  rw [bodyLoop, hget]
  simp only [Option.bind_some, hsaf, Bool.false_and, Bool.false_eq_true, if_false, hff, if_true,
    List.append_assoc, List.cons_append, hat, if_neg hne, hpre]
  congr 2
  omega

/-- The `Content-Length` line, the part header and the beginning of the file in one segment. -/
theorem bodyLoop_length {f : Form} (hf : f.WellFormed) (n : ℕ) (pre y stale : List UInt8)
    (hp : g.totalPackets = 2) (base : ℕ)
    (hbase : base = pre.length + (lengthLine f.contentLength).length + 4)
    (hlen : datalen = base + f.part.length + y.length) (h1446 : datalen ≠ 1446) :
    ∃ g', bodyLoop datalen (n + 1)
        ⟨pre ++ (lengthLine f.contentLength ++ (crlf ++ (crlf ++ (f.part ++ (y ++ stale))))), datalen,
          pre.length⟩ g =
        some (pre ++ (lengthLine f.contentLength ++ [0, 0] ++ crlf) ++
          (lines [0, 0] [f.boundary, f.disposition, f.contentType] ++ crlf) ++ (y ++ stale), g') ∧
      Begun f.file.length y g' ∧ g'.shift = g.shift ∧ g'.supportSafari = false := by
  have hll := hf.header _ hf.sized
  set ll := lengthLine f.contentLength with hlldef
  have hpart := part_length f
  have hlen1 : pre.length + ll.length + 2 ≤ datalen := by omega
  set pre₁ := pre ++ (ll ++ [0, 0] ++ crlf) with hpre₁
  have hpre₁len : pre₁.length = base := by
    simp only [hpre₁, List.length_append, List.length_cons, List.length_nil, crlf_length]
    omega
  set pre₂ := pre₁ ++ (f.boundary ++ [0, 0]) with hpre₂
  set pre₃ := pre₂ ++ (f.disposition ++ [0, 0]) with hpre₃
  set x := pre₃ ++ (f.contentType ++ [0, 0] ++ crlf) with hx
  have hpre₂len : pre₂.length = pre₁.length + f.boundary.length + 2 := by
    simp [hpre₂, Nat.add_assoc]
  have hpre₃len : pre₃.length = pre₂.length + f.disposition.length + 2 := by
    simp [hpre₃, Nat.add_assoc]
  have hxlen : x.length = base + f.part.length := by
    simp only [hx, List.length_append, List.length_cons, List.length_nil, crlf_length]
    omega
  -- the line itself
  have hget := getRequestLine_crlf pre ll (crlf ++ (f.part ++ (y ++ stale))) datalen
    hll.isLine.eolFree hlen1
  have hat := lineAt_line hll.isLine pre (0 :: (crlf ++ (f.part ++ (y ++ stale))))
  have hat16 : lineAt (pre ++ (ll ++ 0 :: 0 :: (crlf ++ (f.part ++ (y ++ stale)))))
      (pre.length + 16) = decimal f.contentLength := by
    rw [lineAt_drop hll.isLine pre _ ?_, hlldef, lengthLine_drop]
    have h := (List.isPrefixOf_iff_prefix.mp (isLength_lengthLine f.contentLength)).length_le
    exact h.trans' (by decide)
  -- the three lines of the part header
  have hget₁ := getRequestLine_crlf pre₁ f.boundary
    (f.disposition ++ (crlf ++ (f.contentType ++ (crlf ++ (crlf ++ (y ++ stale)))))) datalen
    hf.boundary.eolFree (by omega)
  have hat₁ := lineAt_line hf.boundary pre₁
    (0 :: (f.disposition ++ (crlf ++ (f.contentType ++ (crlf ++ (crlf ++ (y ++ stale)))))))
  have hget₂ := getRequestLine_crlf pre₂ f.disposition
    (f.contentType ++ (crlf ++ (crlf ++ (y ++ stale)))) datalen hf.disposition.eolFree (by omega)
  have hget₃ := getRequestLine_crlf pre₃ f.contentType (crlf ++ (y ++ stale)) datalen
    hf.contentType.eolFree (by omega)
  obtain ⟨g', hst, hbeg, hsh, -, hs⟩ := stageFirst_eq datalen
    (g := { g with
      totalFilesize := UInt32.ofNat f.contentLength, contentLength := f.boundary.length })
    base f.part.length f.file.length f.boundary.length x y stale hxlen (by omega) (by omega)
    (by simp only [Form.contentLength, trailer_length]) rfl hp
  have ha₁ : pre ++ (ll ++ 0 :: 0 :: (crlf ++ (f.part ++ (y ++ stale)))) = pre₁ ++ (f.boundary ++
      (crlf ++ (f.disposition ++ (crlf ++ (f.contentType ++ (crlf ++ (crlf ++ (y ++ stale)))))))) := by
    simp [hpre₁, Form.part]
  have ha₂ : pre₁ ++ (f.boundary ++ 0 :: 0 ::
      (f.disposition ++ (crlf ++ (f.contentType ++ (crlf ++ (crlf ++ (y ++ stale))))))) =
      pre₂ ++ (f.disposition ++ (crlf ++ (f.contentType ++ (crlf ++ (crlf ++ (y ++ stale)))))) := by
    simp [hpre₂]
  have ha₃ : pre₂ ++ (f.disposition ++ 0 :: 0 ::
      (f.contentType ++ (crlf ++ (crlf ++ (y ++ stale))))) =
      pre₃ ++ (f.contentType ++ (crlf ++ (crlf ++ (y ++ stale)))) := by
    simp [hpre₃]
  have ha₄ : pre₃ ++ (f.contentType ++ 0 :: 0 :: (crlf ++ (y ++ stale))) = x ++ (y ++ stale) := by
    simp [hx]
  have hxeq : pre ++ (ll ++ [0, 0] ++ crlf) ++
      (lines [0, 0] [f.boundary, f.disposition, f.contentType] ++ crlf) = x := by
    simp [hx, hpre₁, hpre₂, hpre₃]
  refine ⟨g', ?_, hbeg, hsh, hs.trans hsaf⟩
  rw [hxeq]
  have hlength : hasPrefix ll (ascii "Content-Length:") = true := isLength_lengthLine _
  rw [bodyLoop, hget]
  simp only [Option.bind_some, hsaf, Bool.false_and, Bool.false_eq_true, if_false, hff, if_true,
    hat, if_neg hll.isLine.nonempty, hll.notPost, hlength, firefoxBody, hat16,
    simpleStrtol_decimal (contentLength_pos f)]
  rw [ha₁, show pre.length + ll.length + 2 + 2 = pre₁.length by omega, hget₁]
  simp only [Option.bind_some, hat₁]
  rw [ha₂, ← hpre₂len, hget₂]
  simp only [Option.bind_some]
  rw [ha₃, ← hpre₃len, hget₃]
  simp only [Option.bind_some]
  rw [ha₄, show pre₃.length + f.contentType.length + 2 = x.length - 2 by
    simp only [hx, List.length_append, List.length_cons, List.length_nil, crlf_length]; omega,
    hpre₁len, ← hst, hxlen, hlen, hff, hsaf]

/-- The rest of a header whose first lines have been read, up to the beginning of the file. -/
theorem bodyLoop_rest {f : Form} (hf : f.WellFormed) {mid : List CStr}
    (hmid : ∀ l ∈ mid, IsOther l) {l : List UInt8} (y stale : List UInt8) (hl : EolFree l)
    (hp : g.totalPackets = 2)
    (hlen : datalen = postUrl.length + 1 + l.length + 2 + (lines crlf mid).length +
      (lengthLine f.contentLength).length + 4 + f.part.length + y.length)
    (h1446 : datalen ≠ 1446) :
    ∃ g', bodyLoop datalen (datalen + 1)
        ⟨postUrl ++ 0 :: l ++ (crlf ++ (lines crlf mid ++ (lengthLine f.contentLength ++
          (crlf ++ (crlf ++ (f.part ++ (y ++ stale))))))), datalen, 0⟩ g =
        some (postUrl ++ 0 :: l ++ [0, 0] ++ lines [0, 0] mid ++
          (lengthLine f.contentLength ++ [0, 0] ++ crlf) ++
          (lines [0, 0] [f.boundary, f.disposition, f.contentType] ++ crlf) ++ (y ++ stale), g') ∧
      Begun f.file.length y g' ∧ g'.shift = 1 ∧ g'.supportSafari = false := by
  have htwo := two_mul_length_le_lines mid
  obtain ⟨n, hn⟩ : ∃ n, datalen + 1 = mid.length + (n + 1) + 1 :=
    ⟨datalen - mid.length - 1, by omega⟩
  set tail := lengthLine f.contentLength ++ (crlf ++ (crlf ++ (f.part ++ (y ++ stale)))) with htail
  have h1 := bodyLoop_postUrl datalen datalen hff hsaf
    (mid.length + (n + 1)) l (lines crlf mid ++ tail) hl (by omega)
  have h2 := bodyLoop_others datalen datalen (g := { g with shift := 1 }) hff
    hsaf hmid (n + 1) (postUrl ++ 0 :: l ++ [0, 0]) tail
    (by simp only [List.length_append, List.length_cons, List.length_nil]; omega)
  obtain ⟨g', h3, hbeg, hsh, hs⟩ := bodyLoop_length datalen (g := { g with shift := 1 }) hff hsaf hf n
    (postUrl ++ 0 :: l ++ [0, 0] ++ lines [0, 0] mid)
    y stale hp (postUrl.length + 1 + l.length + 2 + (lines crlf mid).length +
      (lengthLine f.contentLength).length + 4)
    (by simp only [List.length_append, List.length_cons, List.length_nil, lines_length]; omega)
    hlen h1446
  have hi : postUrl.length + 1 + l.length + 2 = (postUrl ++ 0 :: l ++ [0, 0]).length := by
    simp only [List.length_append, List.length_cons, List.length_nil]
    omega
  have hj : (postUrl ++ 0 :: l ++ [0, 0]).length + (lines crlf mid).length =
      (postUrl ++ 0 :: l ++ [0, 0] ++ lines [0, 0] mid).length := by
    simp only [List.length_append, lines_length]
  refine ⟨g', ?_, hbeg, hsh, hs⟩
  rw [hn, h1, hi, show postUrl ++ 0 :: l ++ 0 :: 0 :: (lines crlf mid ++ tail) =
    postUrl ++ 0 :: l ++ [0, 0] ++ (lines crlf mid ++ tail) by simp, h2, hj, ← h3,
    List.append_assoc (postUrl ++ 0 :: l ++ [0, 0])]

end

/-- The header of Firefox: the first loop stops at the line of the referrer, and the length is
the last line. -/
structure Layout (f : Form) (before after : List CStr) (referer : CStr) : Prop where
  header : f.header = before ++ referer :: (after ++ [lengthLine f.contentLength])
  announced : before.any isAgent = true
  noReferer : ∀ l ∈ before, contains l (ascii "Referer") = false
  isReferer : contains referer (ascii "Referer") = true
  others : ∀ l ∈ after, isLength l = false

section

variable {f : Form} (hf : f.WellFormed) (hb : f.browser = .firefox)

include hf hb

/-- What the first loop has done when it stops. -/
structure Announced (size : UInt32) (g : Vars) : Prop where
  packets : g.totalPackets = 2
  filesize : g.totalFilesize = size
  firefox : g.supportFireFox = true
  safari : g.supportSafari = false

theorem readHeader_announced {ls : List CStr} (hls : ∀ l ∈ ls, l ∈ f.header)
    (ha : ls.any isAgent = true) {g : Vars} (hsaf : g.supportSafari = false) (sh : ℕ) :
    Announced (if ls.any isLength then UInt32.ofNat f.contentLength else 0)
      { readHeader ls { g with totalSize := 0, totalFilesize := 0, totalPackets := 1 } with
        totalPackets := 2, shift := sh } := by
  simp only [readHeader_eq (contentLength_pos f) (fun l hl ↦ hf.header l (hls l hl)), ha, if_true,
    hb]
  split_ifs <;> exact ⟨rfl, rfl, by simp [setAgent], by simp [setAgent, hsaf]⟩

theorem headerLoop_referer {before after : List CStr} {referer : CStr}
    (hlay : Layout f before after referer) (rest : List UInt8) (len : ℕ)
    (hlen : (lines crlf ((postUrl ++ 0 :: f.version) :: (before ++ [referer]))).length ≤ len)
    {g : Vars} (hsaf : g.supportSafari = false) :
    ∃ g₁, headerLoop (len + 1)
        ⟨lines crlf ((postUrl ++ 0 :: f.version) :: (before ++ [referer])) ++ rest, len, 0⟩ g =
        some (⟨lines [0, 0] ((postUrl ++ 0 :: f.version) :: (before ++ [referer])) ++ rest, len,
          (lines crlf ((postUrl ++ 0 :: f.version) :: (before ++ [referer]))).length⟩, g₁) ∧
      g₁.totalPackets = 1 ∧
      ∀ sh, Announced (if before.any isLength then UInt32.ofNat f.contentLength else 0)
        { g₁ with totalPackets := 2, shift := sh } := by
  have hmem : ∀ l ∈ before, l ∈ f.header := fun l hl ↦ by simp [hlay.header, hl]
  have href : IsLine referer := (hf.header referer (by simp [hlay.header])).isLine
  have hann := readHeader_announced hf hb hmem hlay.announced hsaf
  have hone := readHeader_packets (contentLength_pos f) (fun l hl ↦ hf.header l (hmem l hl))
    { g with totalSize := 0, totalFilesize := 0, totalPackets := 1 }
  refine ⟨_, ?_, hone, hann⟩
  have htwo := two_mul_length_le_lines ((postUrl ++ 0 :: f.version) :: (before ++ [referer]))
  simp only [List.length_cons, List.length_append, List.length_nil] at htwo
  obtain ⟨m, hm⟩ : ∃ m, len + 1 = before.length + (m + 1) + 1 :=
    ⟨len - before.length - 1, by omega⟩
  have happ : ∀ eol, lines eol ((postUrl ++ 0 :: f.version) :: (before ++ [referer])) =
      lines eol ((postUrl ++ 0 :: f.version) :: before) ++ (referer ++ eol) := by
    intro eol
    simp
  rw [happ, List.length_append, List.length_append, crlf_length] at hlen
  have hloop := headerLoop_post hf.version before
    (fun l hl ↦ (hf.header l (hmem l hl)).isLine) (m + 1) len (referer ++ (crlf ++ rest)) g
    (by omega) (unstopped_of_noReferer _ _ hlay.noReferer)
  have hget := getRequestLine_crlf (lines [0, 0] ((postUrl ++ 0 :: f.version) :: before)) referer
    rest len href.eolFree (by rw [lines_length]; omega)
  have hat := lineAt_line href (lines [0, 0] ((postUrl ++ 0 :: f.version) :: before)) (0 :: rest)
  have hff := (hann 0).firefox
  simp only at hff
  rw [happ, happ, hm, List.append_assoc, List.append_assoc, hloop, ← lines_length, headerLoop, hget]
  simp only [Option.bind_some, hat, if_neg href.nonempty, hff, hlay.isReferer, Bool.and_self,
    if_true]
  simp only [List.append_assoc, List.cons_append, List.nil_append, List.length_append, crlf_length,
    lines_length, Nat.add_assoc]

theorem firstCall_firefox {before mid : List CStr} {referer l₀ : CStr}
    (hlay : Layout f before (l₀ :: mid) referer) {d : Delivery} {y : List UInt8}
    (hd : d.data = f.head ++ (f.part ++ y)) (h1446 : d.data.length ≠ 1446) (b : Board)
    (u : Uninit) {g : Vars} (hp : g.totalPackets = 0) (hsaf : g.supportSafari = false) :
    ∃ g', upgradeCgi b u false ⟨terminateUrl 1 (d.data ++ d.stale), d.data.length⟩ g =
        some (0, clearedHead f crlf ++ (y ++ d.stale), g') ∧
      Begun f.file.length y g' ∧ g'.shift ≠ 0 ∧ g'.supportSafari = false := by
  have hmem : ∀ l ∈ l₀ :: mid, IsOther l := fun l hl ↦
    have h := hf.header l (by simp only [hlay.header, List.mem_append, List.mem_cons] at hl ⊢; tauto)
    ⟨h.isLine, h.notPost, hlay.others l hl⟩
  have hother : ∀ l ∈ mid, IsOther l := fun l hl ↦ hmem l (by simp [hl])
  have href := (hf.header referer (by simp [hlay.header])).isLine
  set req := postUrl ++ 0 :: f.version with hreq
  set read := lines [0, 0] (before ++ [referer]) with hread
  set rest := lines crlf mid ++ (lengthLine f.contentLength ++
    (crlf ++ (crlf ++ (f.part ++ (y ++ d.stale))))) with hrest
  have hdata : terminateUrl 1 (d.data ++ d.stale) =
      lines crlf (req :: (before ++ [referer])) ++ (l₀ ++ (crlf ++ rest)) := by
    have h : d.data ++ d.stale = lines crlf ((postUrl ++ 0x20 :: f.version) ::
        (before ++ [referer])) ++ (l₀ ++ (crlf ++ rest)) := by
      rw [hd, Form.head, hlay.header]
      simp [hrest]
    rw [h, terminateUrl_lines, hreq]
  have hlen := congrArg List.length hd
  have hhead := head_length f
  rw [hlay.header, ← hreq] at hhead
  simp only [lines_cons, lines_append, lines_nil, List.length_append, List.length_nil,
    crlf_length] at hlen hhead
  have hreadlen := lines_length (before ++ [referer])
  simp only [lines_append, lines_cons, lines_nil, List.length_append, List.length_nil,
    crlf_length, ← hread] at hreadlen
  obtain ⟨g₁, hloop, hone, hann⟩ := headerLoop_referer hf hb hlay (l₀ ++ (crlf ++ rest))
    d.data.length (g := g)
    (by simp only [← hreq, lines_append, lines_cons, lines_nil, List.length_append, List.length_nil,
          crlf_length]
        omega) hsaf
  rw [← hreq, ← hdata] at hloop
  have hfind := findBoundary_restart d.data.length
    (a := lines [0, 0] (req :: (before ++ [referer])) ++ (l₀ ++ (crlf ++ rest)))
    (r := some ⟨lines [0, 0] (req :: (before ++ [referer])) ++ (l₀ ++ (crlf ++ rest)),
      d.data.length, (lines crlf (req :: (before ++ [referer]))).length⟩)
    (g := { g₁ with totalPackets := 2 }) (.inl (hann 0).firefox)
  have hann₀ := hann 0
  have hl : EolFree (f.version ++ ([0, 0] ++ (read ++ l₀))) := by
    refine hf.version.append (EolFree.append (by decide) (EolFree.append ?_ ?_))
    · apply lines_eolFree
      intro l hl
      rcases List.mem_append.mp hl with h | h
      · exact (hf.header l (by simp [hlay.header, h])).isLine.eolFree
      · rw [List.mem_singleton.mp h]
        exact href.eolFree
    · exact (hmem l₀ (by simp)).isLine.eolFree
  obtain ⟨g', hbody, hbeg, hsh, hs⟩ := bodyLoop_rest d.data.length
    (g := { g₁ with totalPackets := 2, shift := 0 }) hann₀.firefox hann₀.safari hf hother
    y d.stale hl rfl
    (by simp only [hreq, List.length_append, List.length_cons, List.length_nil] at hhead ⊢; omega)
    h1446
  refine ⟨g', ?_, hbeg, by omega, hs⟩
  rw [upgradeCgi_first hp hloop hone]
  simp only [hfind, Option.bind_some]
  rw [show lines [0, 0] (req :: (before ++ [referer])) ++ (l₀ ++ (crlf ++ rest)) =
    postUrl ++ 0 :: (f.version ++ ([0, 0] ++ (read ++ l₀))) ++ (crlf ++ rest) by
      simp [hreq, hread], hrest, hbody, Option.map_some]
  simp [clearedHead, hlay.header, hread]

/-- The lines of the header in a first segment that the first loop reads to the end. -/
inductive Opening (f : Form) (after : List CStr) : List CStr → Prop
  | unstopped (ls : List CStr) (header : f.header = ls ++ (after ++ [lengthLine f.contentLength]))
      (announced : ls.any isAgent = true)
      (noReferer : ∀ l ∈ ls, contains l (ascii "Referer") = false) : Opening f after ls
  | stopped (before : List CStr) (referer : CStr) (layout : Layout f before after referer) :
      Opening f after (before ++ [referer])

omit hf hb in
theorem Opening.header_eq {ls after : List CStr} (ho : Opening f after ls) :
    f.header = ls ++ (after ++ [lengthLine f.contentLength]) := by
  cases ho with
  | unstopped _ header announced noReferer => exact header
  | stopped before referer layout => simp [layout.header]

theorem headerLoop_opening {ls after : List CStr} (ho : Opening f after ls) (stale : List UInt8)
    (len : ℕ) (hlen : len = (lines crlf ((postUrl ++ 0 :: f.version) :: ls)).length) :
    ∃ size, ∀ {g : Vars}, g.supportSafari = false → ∃ g₁, headerLoop (len + 1)
        ⟨lines crlf ((postUrl ++ 0 :: f.version) :: ls) ++ stale, len, 0⟩ g =
        some (⟨lines [0, 0] ((postUrl ++ 0 :: f.version) :: ls) ++ stale, len, len⟩, g₁) ∧
      g₁.totalPackets = 1 ∧ ∀ sh, Announced size { g₁ with totalPackets := 2, shift := sh } := by
  cases ho with
  | stopped before referer layout =>
    refine ⟨if before.any isLength then UInt32.ofNat f.contentLength else 0, fun {g} hsaf ↦ ?_⟩
    obtain ⟨g₁, hloop, hone, hann⟩ := headerLoop_referer hf hb layout stale len hlen.ge (g := g) hsaf
    exact ⟨g₁, by rw [hloop, ← hlen], hone, hann⟩
  | unstopped _ header announced noReferer =>
    have hmem : ∀ l ∈ ls, l ∈ f.header := fun l hl ↦ by simp [header, hl]
    refine ⟨_, fun {g} hsaf ↦ ⟨_, ?_, readHeader_packets (contentLength_pos f) (fun l hl ↦ hf.header l (hmem l hl))
      { g with totalSize := 0, totalFilesize := 0, totalPackets := 1 },
      readHeader_announced hf hb hmem announced hsaf⟩⟩
    have htwo := two_mul_length_le_lines ((postUrl ++ 0 :: f.version) :: ls)
    rw [List.length_cons] at htwo
    obtain ⟨m, hm⟩ : ∃ m, len + 1 = ls.length + (m + 1) + 1 := ⟨len - ls.length - 1, by omega⟩
    have hend := headerLoop_end m (lines [0, 0] ((postUrl ++ 0 :: f.version) :: ls)) [] stale
      (readHeader ls { g with totalSize := 0, totalFilesize := 0, totalPackets := 1 })
      (by simp [EolFree])
    simp only [lines_length, List.length_nil, Nat.add_zero, List.nil_append, ← hlen] at hend
    rw [hm, headerLoop_post hf.version ls (fun l hl ↦ (hf.header l (hmem l hl)).isLine) (m + 1) len
      stale g hlen.ge (unstopped_of_noReferer _ _ noReferer), ← hlen, hend]

/-- Firefox: a first segment that ends before the length is known. -/
theorem upload_opening {ls after : List CStr} (ho : Opening f after ls) {d : Delivery}
    (hd : d.data = lines crlf ((postUrl ++ 0x20 :: f.version) :: ls)) (b : Board) (u : Uninit)
    (ds : List Delivery) :
    ∃ size, ∀ {g : Vars}, g.totalPackets = 0 → g.supportSafari = false → ∃ g₁, Announced size g₁ ∧
      upload b u (d :: ds) g = some (0, g₁) :: some (0, g₁) :: calls b ds g₁ := by
  set ls₀ := (postUrl ++ 0 :: f.version) :: ls with hls₀
  have hlen : d.data.length = (lines crlf ls₀).length := by
    rw [hd]
    simp [hls₀]
  have hterm : terminateUrl 1 (d.data ++ d.stale) = lines crlf ls₀ ++ d.stale := by
    rw [hd, terminateUrl_lines]
  obtain ⟨size, hopening⟩ := headerLoop_opening hf hb ho d.stale d.data.length hlen
  refine ⟨size, fun {g} hp hsaf ↦ ?_⟩
  obtain ⟨g₁, hloop, hone, hann⟩ := hopening hsaf
  rw [← hls₀, ← hterm] at hloop
  have hfree : EolFree (lines [0, 0] ls₀) := by
    have hline : ∀ l ∈ ls, l ∈ f.header := fun l hl ↦ by simp [ho.header_eq, hl]
    apply lines_eolFree
    intro l hl
    rcases List.mem_cons.mp hl with rfl | hl
    · exact EolFree.append (by decide) (EolFree.append (l := [0]) (by decide) hf.version)
    · exact (hf.header l (hline l hl)).isLine.eolFree
  have hbody : ∀ g, bodyLoop d.data.length (d.data.length + 1)
      ⟨lines [0, 0] ls₀ ++ d.stale, d.data.length, 0⟩ g = some (lines [0, 0] ls₀ ++ d.stale, g) := by
    intro g
    have h := bodyLoop_end d.data.length d.data.length [] (lines [0, 0] ls₀) d.stale g hfree
    simpa [lines_length, ← hlen] using h
  have hff := (hann 0).firefox
  refine ⟨{ g₁ with totalPackets := 2, shift := 0 }, hann 0, ?_⟩
  have hA : upgradeCgi b u false ⟨terminateUrl 1 (d.data ++ d.stale), d.data.length⟩ g =
      some (0, lines [0, 0] ls₀ ++ d.stale, { g₁ with totalPackets := 2, shift := 0 }) := by
    rw [upgradeCgi_first hp hloop hone,
      findBoundary_restart (g := { g₁ with totalPackets := 2 }) _ (.inl hff)]
    simp only [Option.bind_some, hbody, Option.map_some]
  have hB : upgradeCgi b d.uninit false ⟨lines [0, 0] ls₀ ++ d.stale, d.data.length⟩
      { g₁ with totalPackets := 2, shift := 0 } =
      some (0, lines [0, 0] ls₀ ++ d.stale, { g₁ with totalPackets := 2, shift := 0 }) := by
    rw [upgradeCgi_second rfl (.inl hff)]
    simp only [hbody, Option.map_some]
  simp only [upload, hA, hB, if_true]

end

/-- Firefox: the segment with the length, the part header and the beginning of the file. -/
theorem upgradeCgi_length {f : Form} (hf : f.WellFormed) {ls after : List CStr} (ho : Opening f after ls)
    (hafter : ∀ l ∈ after, isLength l = false) {d : Delivery} {y : List UInt8}
    (hd : d.data = lines crlf (after ++ [lengthLine f.contentLength]) ++ (crlf ++ (f.part ++ y)))
    (h1446 : d.data.length ≠ 1446) {g : Vars} {size : UInt32} (hann : Announced size g)
    (b : Board) :
    ∃ a g', upgradeCgi b d.uninit false d.packet g = some (0, a, g') ∧
      Begun f.file.length y g' ∧ g'.shift = 0 ∧ g'.supportSafari = false := by
  have hmem : ∀ l ∈ after, l ∈ f.header := fun l hl ↦ by simp [ho.header_eq, hl]
  have hother : ∀ l ∈ after, IsOther l := fun l hl ↦
    ⟨(hf.header l (hmem l hl)).isLine, (hf.header l (hmem l hl)).notPost, hafter l hl⟩
  have hlen := congrArg List.length hd
  simp only [lines_append, lines_cons, lines_nil, List.length_append, List.length_nil,
    crlf_length] at hlen
  have htwo := two_mul_length_le_lines after
  obtain ⟨n, hn⟩ : ∃ n, d.data.length + 1 = after.length + (n + 1) :=
    ⟨d.data.length - after.length, by omega⟩
  set tail := lengthLine f.contentLength ++ (crlf ++ (crlf ++ (f.part ++ (y ++ d.stale)))) with htail
  have h1 := bodyLoop_others d.data.length d.data.length (g := { g with shift := 0 }) hann.firefox
    hann.safari hother (n + 1) [] tail (by simp only [List.length_nil]; omega)
  obtain ⟨g', h2, hbeg, hsh, hs⟩ := bodyLoop_length d.data.length (g := { g with shift := 0 })
    hann.firefox hann.safari hf n (lines [0, 0] after) y d.stale hann.packets
    ((lines crlf after).length + (lengthLine f.contentLength).length + 4)
    (by rw [lines_length]) (by omega) h1446
  have hdata : d.packet.appdata = [] ++ (lines crlf after ++ tail) := by
    simp [Delivery.packet, hd, htail]
  simp only [List.length_nil, Nat.zero_add, List.nil_append] at h1 h2 hdata
  rw [upgradeCgi_second hann.packets (.inl hann.firefox), hdata]
  simp only [Delivery.packet, hn]
  rw [h1, ← lines_length, htail, h2, Option.map_some]
  exact ⟨_, g', rfl, hbeg, hsh, hs⟩

end UBoot.Httpd.Firefox
