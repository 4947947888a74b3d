import UBoot.Httpd.Multipart

namespace UBoot.Httpd.PartHeader

open Lib.CString LibGeneric.Vsprintf Cgi Appcall RequestLine Upload Multipart

/-- The file has begun: its first bytes `y` are staged and its size is known. -/
structure Begun (total : ℕ) (y : List UInt8) (g : Vars) : Prop where
  packets : g.totalPackets = 3
  filesize : g.totalFilesize = UInt32.ofNat total
  size : g.totalSize = UInt32.ofNat y.length
  bufferPtr : g.bufferPtr = y.length
  contents : staged g y.length = y

section

variable (datalen n len : ℕ) {l : CStr} {g : Vars}

/-- The second loop on a line that is not the one of the content type. -/
theorem bodyLoop_line (hl : IsLine l) (pre rest : List UInt8)
    (hlen : pre.length + l.length + 2 ≤ len) (hff : g.supportFireFox = false)
    (hsaf : (g.supportSafari && g.contentLength == 0) = false)
    (hct : hasPrefix l (ascii "Content-Type:") = false) :
    bodyLoop datalen (n + 1) ⟨pre ++ (l ++ (crlf ++ rest)), len, pre.length⟩ g =
      bodyLoop datalen n ⟨pre ++ (l ++ 0 :: 0 :: rest), len, pre.length + l.length + 2⟩
        (boundaryLine l g) := by
  rw [bodyLoop, getRequestLine_crlf pre l rest len hl.eolFree hlen]
  simp only [Option.bind_some, hsaf, Bool.false_eq_true, if_false, lineAt_line hl,
    if_neg hl.nonempty, hff, hct]

theorem bodyLoop_contentType (hl : IsLine l) (pre rest : List UInt8)
    (hlen : pre.length + l.length + 2 ≤ len) (hff : g.supportFireFox = false)
    (hsaf : (g.supportSafari && g.contentLength == 0) = false)
    (hct : hasPrefix l (ascii "Content-Type:") = true) :
    bodyLoop datalen (n + 1) ⟨pre ++ (l ++ (crlf ++ rest)), len, pre.length⟩ g =
      stageFirst datalen g.shift ⟨pre ++ (l ++ 0 :: 0 :: rest), len, pre.length + l.length + 2⟩ g := by
  have hd : ∀ k, 0 < k → hasPrefix l (dashes k) = false := by
    intro k hk
    obtain ⟨k, rfl⟩ := Nat.exists_eq_succ_of_ne_zero (Nat.pos_iff_ne_zero.mp hk)
    obtain ⟨rest, rfl⟩ := List.isPrefixOf_iff_prefix.mp hct
    rfl
  have hb : boundaryLine l g = g := by
    simp [boundaryLine, hd]
  rw [bodyLoop, getRequestLine_crlf pre l rest len hl.eolFree hlen]
  simp only [Option.bind_some, hsaf, Bool.false_eq_true, if_false, lineAt_line hl,
    if_neg hl.nonempty, hff, hct, if_true, hb]

/-- The size of the file is what `Content-Length` has beside the part header and the trailer. -/
theorem stageFirst_eq (base partLen total cl : ℕ) (x y stale : List UInt8)
    (hx : x.length = base + partLen) (hlen : 2 ≤ x.length)
    (h1446 : x.length + y.length ≠ 1446)
    (hsize : g.totalFilesize = UInt32.ofNat (partLen + total + (cl + 6)))
    (hcl : g.contentLength = cl) (hp : g.totalPackets = 2) :
    ∃ g', stageFirst (x.length + y.length) base ⟨x ++ (y ++ stale), len, x.length - 2⟩ g =
        some (x ++ (y ++ stale), g') ∧ Begun total y g' ∧ g'.shift = g.shift ∧
      g'.supportFireFox = g.supportFireFox ∧ g'.supportSafari = g.supportSafari := by
  have hidx : x.length - 2 + 2 = x.length := by omega
  have hy : ((x ++ (y ++ stale)).drop x.length).take y.length = y := by
    rw [List.drop_left, List.take_left]
  have hfile : g.totalFilesize - UInt32.ofNat x.length - UInt32.ofNat g.contentLength - 6 +
      UInt32.ofNat base = UInt32.ofNat total := by
    rw [hsize, hcl, hx]
    simp only [UInt32.ofNat_add]
    grind
  let g' : Vars := { g with
    totalFilesize := UInt32.ofNat total
    totalSize := UInt32.ofNat y.length
    ptr := memcpy g.ptr 0 y
    bufferPtr := y.length
    totalPackets := g.totalPackets + 1 }
  refine ⟨g', ?_, ⟨by simp [g', hp], rfl, rfl, rfl, ?_⟩, rfl, rfl, rfl⟩
  · simp only [stageFirst, hidx, ne_eq, h1446, not_false_eq_true, if_true, hfile,
      if_neg (show ¬ x.length + y.length < x.length by omega), Nat.add_sub_cancel_left, hy, g']
  · simpa [staged] using staged_memcpy g g' 0 y rfl

end

theorem headerLoop_blank (n len : ℕ) (pre rest : List UInt8) (g : Vars)
    (hlen : pre.length + 2 ≤ len) :
    headerLoop (n + 1) ⟨pre ++ (crlf ++ rest), len, pre.length⟩ g =
      some (⟨pre ++ 0 :: 0 :: rest, len, pre.length + 2⟩, g) := by
  have hline := getRequestLine_crlf pre [] rest len (by simp [EolFree]) hlen
  have hat : lineAt (pre ++ 0 :: 0 :: rest) pre.length = [] :=
    lineAt_append pre [] (0 :: rest) (by simp [NulFree])
  simp only [List.nil_append, List.length_nil, Nat.add_zero] at hline
  simp only [headerLoop, hline, Option.bind_some, hat, if_true]

theorem headerLoop_end (n : ℕ) (pre tail rest : List UInt8) (g : Vars) (ht : EolFree tail) :
    headerLoop (n + 1) ⟨pre ++ (tail ++ rest), pre.length + tail.length, pre.length⟩ g =
      some (⟨pre ++ (tail ++ rest), pre.length + tail.length, pre.length + tail.length⟩, g) := by
  simp only [headerLoop, getRequestLine_none pre tail rest ht, Option.bind_some]

theorem bodyLoop_end (datalen n : ℕ) (pre tail rest : List UInt8) (g : Vars)
    (ht : EolFree tail) :
    bodyLoop datalen (n + 1) ⟨pre ++ (tail ++ rest), pre.length + tail.length, pre.length⟩ g =
      some (pre ++ (tail ++ rest), g) := by
  simp only [bodyLoop, getRequestLine_none pre tail rest ht, Option.bind_some]

/-- The uninitialised locals make `get_request_line` return NULL. -/
def Quiet (u : Uninit) : Prop := u.requestLen ≤ u.requestIdx

instance (u : Uninit) : Decidable (Quiet u) :=
  inferInstanceAs (Decidable (u.requestLen ≤ u.requestIdx))

theorem findBoundary_restart (datalen : ℕ) {a : List UInt8} {r : Option Request} {g : Vars}
    (h : g.supportFireFox = true ∨
      ∃ q q', r = some q ∧ getRequestLine q = some (none, q') ∧ q'.appdata = a) :
    findBoundary datalen a r g = some (⟨a, datalen, 0⟩, { g with shift := 0 }) := by
  unfold findBoundary
  rcases h with h | ⟨q, q', rfl, hq, rfl⟩
  · rw [if_pos h]
  · by_cases h : g.supportFireFox = true
    · rw [if_pos h]
    · rw [if_neg h, Option.bind_some, hq, Option.bind_some]

theorem upgradeCgi_second {b : Board} {u : Uninit} {p : Packet} {g : Vars}
    (hp : g.totalPackets = 2) (hu : g.supportFireFox = true ∨ Quiet u) :
    upgradeCgi b u false p g =
      (bodyLoop p.datalen (p.datalen + 1) ⟨p.appdata, p.datalen, 0⟩ { g with shift := 0 }).map
        fun (a, g) ↦ (0, a, g) := by
  have hr : findBoundary p.datalen p.appdata (u.request p.appdata) g =
      some (⟨p.appdata, p.datalen, 0⟩, { g with shift := 0 }) := by
    apply findBoundary_restart
    rcases hu with hff | hq
    · exact .inl hff
    · refine .inr ⟨⟨p.appdata, 0, 0⟩, ⟨p.appdata, 0, 0⟩, ?_, by rfl, rfl⟩
      exact if_pos hq
  simp [upgradeCgi, upgradeBody, hp, hr]

theorem upgradeCgi_first {b : Board} {u : Uninit} {p : Packet} {g g₁ : Vars} {r : Request}
    (hp : g.totalPackets = 0)
    (hl : headerLoop (p.datalen + 1) ⟨p.appdata, p.datalen, 0⟩ g = some (r, g₁))
    (h1 : g₁.totalPackets = 1) :
    upgradeCgi b u false p g =
      (findBoundary p.datalen r.appdata (some r) { g₁ with totalPackets := 2 }).bind fun (r, g) ↦
        (bodyLoop p.datalen (p.datalen + 1) r g).map fun (a, g) ↦ (0, a, g) := by
  simp [upgradeCgi, hp, hl, upgradeBody, h1]

theorem unstopped_of_notFirefox {browser : Browser} {n : ℕ} (hn : 0 < n)
    (hb : browser ≠ .firefox) {ls : List CStr} (hls : ∀ l ∈ ls, IsHeader browser n l) {g : Vars}
    (hg : g.supportFireFox = false) : Unstopped ls g := by
  induction ls generalizing g with
  | nil => trivial
  | cons l ls ih =>
    refine ⟨by rw [hg, Bool.false_and], ih (fun m hm ↦ hls m (by simp [hm])) ?_⟩
    rw [headerText_eq hn (hls l (by simp))]
    split_ifs
    · simp [setAgent, hg, hb]
    · exact hg
    · exact hg

/-- The variables after the header of a form. -/
def opened (f : Form) (g : Vars) : Vars :=
  { setAgent f.browser g with
    totalSize := 0, totalFilesize := UInt32.ofNat f.contentLength, totalPackets := 2, shift := 0 }

theorem setAgent_internetExplorer (g : Vars) : setAgent .internetExplorer g = g := by
  rcases g with ⟨⟩
  simp [setAgent]

theorem contentLength_pos (f : Form) : 0 < f.contentLength := by
  simp only [Form.contentLength, Form.part, List.length_append, crlf_length]
  omega

theorem trailer_length (f : Form) : f.trailer.length = f.boundary.length + 6 := by
  have : (ascii "--").length = 2 := by decide
  simp only [Form.trailer, List.length_append, crlf_length, this]
  omega

theorem part_length (f : Form) : f.part.length =
    f.boundary.length + f.disposition.length + f.contentType.length + 8 := by
  simp only [Form.part, lines_cons, lines_nil, List.length_append, crlf_length, List.length_nil]
  omega

theorem head_length (f : Form) : f.head.length =
    (lines crlf ((postUrl ++ 0 :: f.version) :: f.header)).length + 2 := by
  simp only [Form.head, lines_cons, List.length_append, List.length_cons, crlf_length]

theorem hasPrefix_dashes_mono {l : CStr} {k m : ℕ} (h : hasPrefix l (dashes k) = false)
    (hkm : k ≤ m) : hasPrefix l (dashes m) = false := by
  by_contra hm
  have hpre : dashes k <+: dashes m := by
    rw [dashes, dashes, List.prefix_replicate_iff]
    simp [hkm]
  have hl : dashes k <+: l :=
    hpre.trans (List.isPrefixOf_iff_prefix.mp (by simpa [hasPrefix] using hm))
  rw [hasPrefix, List.isPrefixOf_iff_prefix.mpr hl] at h
  cases h

section

variable {f : Form} (hf : f.WellFormed)

include hf

/-- The lines of the header that come in the first segment. -/
structure Covers (f : Form) (ls : List CStr) : Prop where
  header : ∀ l ∈ ls, l ∈ f.header
  announced : f.browser = .internetExplorer ∨ ls.any isAgent = true
  sized : lengthLine f.contentLength ∈ ls

theorem readHeader_opened {ls : List CStr} (hls : Covers f ls) (g : Vars) :
    { readHeader ls { g with totalSize := 0, totalFilesize := 0, totalPackets := 1 } with
        totalPackets := 2, shift := 0 } = opened f g := by
  have hlen : ls.any isLength = true :=
    List.any_eq_true.mpr ⟨_, hls.sized, isLength_lengthLine _⟩
  rw [readHeader_eq (contentLength_pos f) (fun l hl ↦ hf.header l (hls.header l hl)), hlen]
  rcases hls.announced with hie | hany
  · by_cases ha : ls.any isAgent = true <;> simp [opened, hie, ha, setAgent_internetExplorer]
  · simp [hany, opened, setAgent]

/-- The header loop on a first segment that ends with the header or in it. -/
theorem headerLoop_alone (hb : f.browser ≠ .firefox) {ls : List CStr} (hls : Covers f ls)
    {tail : List UInt8} (ht : tail = crlf ∨ EolFree tail) (stale : List UInt8) {g : Vars}
    (hg : g.supportFireFox = false) {data : List UInt8}
    (hdata : data = lines crlf ((postUrl ++ 0 :: f.version) :: ls) ++ tail) :
    ∃ cleared, headerLoop (data.length + 1) ⟨data ++ stale, data.length, 0⟩ g =
        some (⟨cleared ++ stale, data.length, data.length⟩,
          readHeader ls { g with totalSize := 0, totalFilesize := 0, totalPackets := 1 }) ∧
      EolFree cleared ∧ cleared.length = data.length := by
  have hline : ∀ l ∈ ls, IsHeader f.browser f.contentLength l := fun l hl ↦
    hf.header l (hls.header l hl)
  have hstop : Unstopped ls { g with totalSize := 0, totalFilesize := 0, totalPackets := 1 } :=
    unstopped_of_notFirefox (contentLength_pos f) hb hline hg
  have hpost : EolFree (postUrl ++ 0 :: f.version) :=
    EolFree.append (by decide) (EolFree.append (l := [0]) (by decide) hf.version)
  have hfree : EolFree (lines [0, 0] ((postUrl ++ 0 :: f.version) :: ls)) := by
    apply lines_eolFree
    intro l hl
    rcases List.mem_cons.mp hl with rfl | hl
    · exact hpost
    · exact (hline l hl).isLine.eolFree
  have hlen := lines_length ((postUrl ++ 0 :: f.version) :: ls)
  have htwo := two_mul_length_le_lines ((postUrl ++ 0 :: f.version) :: ls)
  have hd := congrArg List.length hdata
  simp only [List.length_append, List.length_cons] at htwo hd
  obtain ⟨m, hm⟩ : ∃ m, data.length + 1 = ls.length + (m + 1) + 1 :=
    ⟨data.length - ls.length - 1, by omega⟩
  have hr := headerLoop_post hf.version ls (fun l hl ↦ (hline l hl).isLine) (m + 1) data.length
    (tail ++ stale) g (by omega) hstop
  rw [hm]
  rcases ht with rfl | ht
  · refine ⟨lines [0, 0] ((postUrl ++ 0 :: f.version) :: ls) ++ [0, 0], ?_, ?_, ?_⟩
    · have hbl := headerLoop_blank m data.length
        (lines [0, 0] ((postUrl ++ 0 :: f.version) :: ls)) stale
        (readHeader ls { g with totalSize := 0, totalFilesize := 0, totalPackets := 1 })
        (by rw [hlen]; simp only [crlf_length] at hd; omega)
      rw [hdata, List.append_assoc, ← hdata, hr, ← hlen, hbl, hlen]
      simp [hd]
    · exact hfree.append (by decide)
    · rw [List.length_append, hlen, hd]
      rfl
  · refine ⟨lines [0, 0] ((postUrl ++ 0 :: f.version) :: ls) ++ tail, ?_, ?_, ?_⟩
    · have hend := headerLoop_end m (lines [0, 0] ((postUrl ++ 0 :: f.version) :: ls)) tail stale
        (readHeader ls { g with totalSize := 0, totalFilesize := 0, totalPackets := 1 }) ht
      rw [hlen, ← hd] at hend
      rw [hdata, List.append_assoc, ← hdata, hr, hend]
      simp
    · exact hfree.append ht
    · rw [List.length_append, hlen, hd]

/-- A first segment that ends with the header or in it only opens the upload. -/
theorem upload_alone (hb : f.browser ≠ .firefox) {ls : List CStr} (hls : Covers f ls)
    {tail : List UInt8} (ht : tail = crlf ∨ EolFree tail) {d : Delivery}
    (hd : d.data = lines crlf ((postUrl ++ 0x20 :: f.version) :: ls) ++ tail)
    (hq : Quiet d.uninit) {g : Vars} (hp : g.totalPackets = 0) (hg : g.supportFireFox = false)
    (b : Board) (u : Uninit) (ds : List Delivery) :
    upload b u (d :: ds) g =
      some (0, opened f g) :: some (0, opened f g) :: calls b ds (opened f g) := by
  have hlen : d.data.length = (lines crlf ((postUrl ++ 0 :: f.version) :: ls) ++ tail).length := by
    rw [hd]
    simp
  have hterm : terminateUrl 1 (d.data ++ d.stale) =
      lines crlf ((postUrl ++ 0 :: f.version) :: ls) ++ tail ++ d.stale := by
    rw [hd, List.append_assoc, terminateUrl_lines, List.append_assoc]
  obtain ⟨cleared, hloop, hfree, hcl⟩ := headerLoop_alone hf hb hls ht d.stale hg rfl
  rw [← hlen] at hloop hcl
  have hopen := readHeader_opened hf hls g
  have hone := readHeader_packets (contentLength_pos f)
    (fun l hl ↦ hf.header l (hls.header l hl))
    { g with totalSize := 0, totalFilesize := 0, totalPackets := 1 }
  -- no line is left for the second loop in either call
  have hnone : getRequestLine ⟨cleared ++ d.stale, d.data.length, d.data.length⟩ =
      some (none, ⟨cleared ++ d.stale, d.data.length, d.data.length⟩) := by
    have h := getRequestLine_none cleared [] d.stale (by simp [EolFree])
    simpa [hcl] using h
  have hbody : ∀ g, bodyLoop d.data.length (d.data.length + 1)
      ⟨cleared ++ d.stale, d.data.length, 0⟩ g = some (cleared ++ d.stale, g) := by
    intro g
    have h := bodyLoop_end d.data.length d.data.length [] cleared d.stale g hfree
    simpa [hcl] using h
  have hA : upgradeCgi b u false ⟨terminateUrl 1 (d.data ++ d.stale), d.data.length⟩ g =
      some (0, cleared ++ d.stale, opened f g) := by
    rw [hterm]
    rw [upgradeCgi_first hp hloop hone, findBoundary_restart _ (.inr ⟨_, _, rfl, hnone, rfl⟩)]
    simp only [Option.bind_some, hbody, Option.map_some, hopen]
  have hB : upgradeCgi b d.uninit false ⟨cleared ++ d.stale, d.data.length⟩ (opened f g) =
      some (0, cleared ++ d.stale, opened f g) := by
    rw [upgradeCgi_second rfl (.inr hq)]
    simp only [hbody, Option.map_some]
    rfl
  simp only [upload, hA, hB, if_true]

theorem bodyLoop_part (n datalen base : ℕ) (pre y stale : List UInt8) {g : Vars}
    (hff : g.supportFireFox = false) (hsaf : g.supportSafari = false) (hp : g.totalPackets = 2)
    (hcl : g.contentLength = f.boundary.length)
    (hsize : g.totalFilesize = UInt32.ofNat f.contentLength) (hbase : g.shift = base)
    (hpre : pre.length = base + f.boundary.length + 2)
    (hlen : datalen = base + f.part.length + y.length) (h1446 : datalen ≠ 1446) :
    ∃ g', bodyLoop datalen (n + 2)
        ⟨pre ++ (lines crlf [f.disposition, f.contentType] ++ (crlf ++ (y ++ stale))),
          datalen, pre.length⟩ g =
        some (pre ++ (lines [0, 0] [f.disposition, f.contentType] ++ crlf) ++ (y ++ stale), g') ∧
      Begun f.file.length y g' ∧ g'.shift = base ∧ g'.supportSafari = false := by
  have hpart := part_length f
  have hno : (g.supportSafari && g.contentLength == 0) = false := by simp [hsaf]
  have hdash : boundaryLine f.disposition g = g := by
    have h6 := hf.notDashes
    have h12 := hasPrefix_dashes_mono h6 (show 6 ≤ 12 by decide)
    have h29 := hasPrefix_dashes_mono h6 (show 6 ≤ 29 by decide)
    simp [boundaryLine, h6, h12, h29]
  set x := pre ++ (lines [0, 0] [f.disposition, f.contentType] ++ crlf) with hx
  have hxlen : x.length = base + f.part.length := by
    simp only [hx, lines_cons, lines_nil, List.length_append, List.length_cons, List.length_nil,
      crlf_length, hpre, hpart]
    omega
  have h1 := bodyLoop_line datalen (n + 1) datalen hf.disposition pre
    (f.contentType ++ (crlf ++ (crlf ++ (y ++ stale)))) (by omega) hff hno hf.notContentType
  have h2 := bodyLoop_contentType datalen n datalen hf.contentType
    (pre ++ (f.disposition ++ [0, 0])) (crlf ++ (y ++ stale))
    (by simp only [List.length_append, List.length_cons, List.length_nil]; omega) hff hno
    hf.isContentType
  obtain ⟨g', hst, hbeg, hsh, -, hs⟩ := stageFirst_eq (g := g) datalen base f.part.length
    f.file.length f.boundary.length x y stale hxlen (by omega) (by omega)
    (by rw [hsize, Form.contentLength, trailer_length]) hcl hp
  have ha : pre ++ (lines crlf [f.disposition, f.contentType] ++ (crlf ++ (y ++ stale))) =
      pre ++ (f.disposition ++ (crlf ++ (f.contentType ++ (crlf ++ (crlf ++ (y ++ stale)))))) := by
    simp
  have hb : pre ++ (f.disposition ++ 0 :: 0 :: (f.contentType ++ (crlf ++ (crlf ++ (y ++ stale))))) =
      pre ++ (f.disposition ++ [0, 0]) ++ (f.contentType ++ (crlf ++ (crlf ++ (y ++ stale)))) := by
    simp
  have hc : pre ++ (f.disposition ++ [0, 0]) ++ (f.contentType ++ 0 :: 0 :: (crlf ++ (y ++ stale))) =
      x ++ (y ++ stale) := by
    simp [hx]
  have hi : pre.length + f.disposition.length + 2 = (pre ++ (f.disposition ++ [0, 0])).length := by
    simp only [List.length_append, List.length_cons, List.length_nil]
    omega
  have hj : (pre ++ (f.disposition ++ [0, 0])).length + f.contentType.length + 2 = x.length - 2 := by
    rw [← hi]
    omega
  refine ⟨g', ?_, hbeg, hsh.trans hbase, hs.trans hsaf⟩
  rw [ha, h1, hdash, hb, hi, h2, hc, hj, hbase, ← hst, hxlen, hlen]

theorem boundary_dashes : hasPrefix f.boundary (dashes 6) = true := by
  have h := hf.boundaryIs
  by_contra h6
  have h6' : hasPrefix f.boundary (dashes 6) = false := by simpa using h6
  have h12 := hasPrefix_dashes_mono h6' (show 6 ≤ 12 by decide)
  have h29 := hasPrefix_dashes_mono h6' (show 6 ≤ 29 by decide)
  cases hb : f.browser <;> simp [hb, Browser.boundaryIs, h6', h12, h29] at h

theorem boundaryLine_boundary (g : Vars) :
    boundaryLine f.boundary g = { g with contentLength := f.boundary.length } := by
  have h6 := boundary_dashes hf
  unfold boundaryLine
  split_ifs <;> rfl

theorem boundary_notContentType : hasPrefix f.boundary (ascii "Content-Type:") = false := by
  obtain ⟨l, hl⟩ := List.isPrefixOf_iff_prefix.mp (boundary_dashes hf)
  rw [← hl]
  rfl

theorem upgradeCgi_part {d : Delivery} {y : List UInt8} (hd : d.data = f.part ++ y)
    (hq : Quiet d.uninit) {g : Vars} (hff : g.supportFireFox = false)
    (hsaf : g.supportSafari = false) (hp : g.totalPackets = 2)
    (hsize : g.totalFilesize = UInt32.ofNat f.contentLength) (h1446 : d.data.length ≠ 1446)
    (b : Board) :
    ∃ a g', upgradeCgi b d.uninit false d.packet g = some (0, a, g') ∧
      Begun f.file.length y g' ∧ g'.shift = 0 ∧ g'.supportSafari = false := by
  have hlen : d.data.length = 0 + f.part.length + y.length := by
    rw [hd, List.length_append]
    omega
  have hpart := part_length f
  have hdata : d.packet.appdata = [] ++ (f.boundary ++ (crlf ++
      (lines crlf [f.disposition, f.contentType] ++ (crlf ++ (y ++ d.stale))))) := by
    simp [Delivery.packet, hd, Form.part]
  obtain ⟨n, hn⟩ : ∃ n, d.data.length + 1 = n + 2 + 1 := ⟨d.data.length - 2, by omega⟩
  have h1 := bodyLoop_line d.data.length (n + 2) d.data.length (g := { g with shift := 0 }) hf.boundary []
    (lines crlf [f.disposition, f.contentType] ++ (crlf ++ (y ++ d.stale)))
    (by simp only [List.length_nil]; omega) hff (by simp [hsaf]) (boundary_notContentType hf)
  obtain ⟨g', h2, hbeg, hsh, hs⟩ := bodyLoop_part hf n d.data.length 0 (f.boundary ++ [0, 0]) y d.stale
    (g := { g with shift := 0, contentLength := f.boundary.length }) hff hsaf hp rfl hsize rfl
    (by simp) hlen h1446
  refine ⟨f.boundary ++ [0, 0] ++ (lines [0, 0] [f.disposition, f.contentType] ++ crlf) ++
    (y ++ d.stale), g', ?_, hbeg, hsh, hs⟩
  have hpre : f.boundary ++ [0, 0] ++ (lines crlf [f.disposition, f.contentType] ++
      (crlf ++ (y ++ d.stale))) = [] ++ (f.boundary ++ 0 :: 0 ::
      (lines crlf [f.disposition, f.contentType] ++ (crlf ++ (y ++ d.stale)))) := by
    simp
  have hlen' : (f.boundary ++ [0, 0]).length = ([] : List UInt8).length + f.boundary.length + 2 := by
    simp
  rw [hpre, hlen'] at h2
  rw [upgradeCgi_second hp (.inr hq), hdata]
  simp only [Delivery.packet, hn, List.length_nil] at h1 h2 ⊢
  rw [h1, boundaryLine_boundary hf, h2, Option.map_some]

end

section

variable {b : Board} {total : ℕ} {y : List UInt8} {g : Vars}

theorem calls_stuck (hp : g.totalPackets = 3) (h0 : g.totalSize = 0)
    (hs : g.supportSafari = false) (ds : List Delivery) (g' : Vars) :
    some (1, g') ∉ calls b ds g := by
  induction ds with
  | nil => simp [calls]
  | cons d ds ih =>
    have hr : upgradeCgi b d.uninit false d.packet g = some (0, d.packet.appdata, g) := by
      simp [upgradeCgi, upgradeBody, hp, h0, hs]
    simpa [calls, hr] using ih

theorem Begun.staging (h : Begun total y g) (body : List UInt8) (hy : y <+: body) (hne : y ≠ [])
    (hshift : g.shift = 0) (hn : y.length < 2 ^ 32) (ht : total < 2 ^ 32) :
    Staging total body y.length g where
  packets := h.packets
  filesize := by rw [h.filesize, UInt32.toNat_ofNat_of_lt' (by simpa using ht)]
  size := by rw [h.size, UInt32.toNat_ofNat_of_lt' (by simpa using hn)]
  bufferPtr := h.bufferPtr
  contents := by rw [h.contents]; exact List.prefix_iff_eq_take.mp hy
  shift := hshift
  live := .inl (by simpa using hne)

/-- From the beginning of the file on, every way to cut the rest of the body is right. -/
theorem Begun.accepted {file tail : List UInt8} (h : Begun file.length y g)
    (hshift : g.shift = 0) (hsaf : g.supportSafari = false) {ds : List Delivery}
    (hds : y ++ (ds.map (·.data)).flatten = file ++ tail) (hn : (file ++ tail).length < 2 ^ 32)
    {g' : Vars} (hg : some (1, g') ∈ calls b ds g) : staged g' g'.totalFilesize.toNat = file := by
  have hlen := congrArg List.length hds
  simp only [List.length_append] at hlen hn
  by_cases hne : y = []
  · subst hne
    exact absurd hg (calls_stuck h.packets h.size hsaf ds g')
  · have hst := h.staging (file ++ tail) ⟨_, hds⟩ hne hshift (by omega) (by omega)
    refine hst.accepted ds ?_ ?_ ?_ hg
    · rw [← hds, List.drop_left]
    · simp only [List.length_append]
      omega
    · simp only [List.length_append]
      omega

/-- The second call on a first segment that holds the beginning of the file. Either the mark in
`shift` makes it ignore the segment, or the file is already complete. -/
theorem Begun.secondCall {file : List UInt8} (h : Begun file.length y g) (tail : List UInt8)
    (hshift : g.shift ≠ 0) (hsaf : g.supportSafari = false) (u : Uninit) (p : Packet)
    (hn : y.length + p.datalen < 2 ^ 32) (ht : file.length < 2 ^ 32) (hy : y <+: file ++ tail)
    (hfit : y.length + p.datalen < file.length ∨ file.length ≤ y.length) :
    ∃ ret g₁, upgradeCgi b u false p g = some (ret, p.appdata, g₁) ∧
      (ret = 0 ∧ Begun file.length y g₁ ∧ (y = [] ∨ g₁.shift = 0) ∧ g₁.supportSafari = false ∨
        ret ≠ 0 ∧ (ret = 1 → staged g₁ g₁.totalFilesize.toNat = file)) := by
  by_cases hne : y = []
  · refine ⟨0, g, ?_, .inl ⟨rfl, h, .inl hne, hsaf⟩⟩
    have h0 : g.totalSize = 0 := by rw [h.size, hne]; rfl
    simp [upgradeCgi, upgradeBody, h.packets, h0, hsaf]
  · have hpos : 0 < y.length := List.length_pos_iff.mpr hne
    have hytn : g.totalSize.toNat = y.length := by
      rw [h.size, UInt32.toNat_ofNat_of_lt' (by simpa using (by omega : y.length < 2 ^ 32))]
    have hs : g.totalSize ≠ 0 := by
      intro h0
      rw [h0] at hytn
      exact absurd hytn.symm hpos.ne'
    have hsize : (g.totalSize + UInt32.ofNat p.datalen).toNat = y.length + p.datalen := by
      rw [toNat_add_ofNat (by rw [hytn]; exact hn), hytn]
    have hcall : upgradeCgi b u false p g =
        some ((dataPacket b p g).1, p.appdata, (dataPacket b p g).2) := by
      simp [upgradeCgi, upgradeBody, h.packets, hs]
    have hftn : g.totalFilesize.toNat = file.length := by
      rw [h.filesize, UInt32.toNat_ofNat_of_lt' (by simpa using ht)]
    rcases hfit with hlt | hle
    · have hlt' : g.totalSize + UInt32.ofNat p.datalen < g.totalFilesize := by
        rw [UInt32.lt_iff_toNat_lt, hsize, hftn]
        exact hlt
      have hr : dataPacket b p g = (0, { g with shift := 0 }) := dataPacket_skip hlt' hshift
      refine ⟨0, { g with shift := 0 }, by rw [hcall, hr], .inl ⟨rfl, ?_, .inr rfl, hsaf⟩⟩
      exact ⟨h.packets, h.filesize, h.size, h.bufferPtr, h.contents⟩
    · have hlt' : ¬ g.totalSize + UInt32.ofNat p.datalen < g.totalFilesize := by
        rw [UInt32.lt_iff_toNat_lt, hsize, hftn]
        omega
      let g₀ := stage p { g with totalSize := g.totalSize + UInt32.ofNat p.datalen }
      have hr : dataPacket b p g = complete b g₀ := dataPacket_complete hlt'
      refine ⟨_, _, hcall, .inr ⟨by rw [hr]; exact complete_ne_zero b g₀, fun h1 ↦ ?_⟩⟩
      rw [hr] at h1 ⊢
      have hc : complete b g₀ = (1, (complete b g₀).2) := Prod.ext h1 rfl
      have hstaged : staged g₀ (y.length + (p.appdata.take p.datalen).length) =
          staged g y.length ++ p.appdata.take p.datalen :=
        staged_memcpy g g₀ y.length _ (by simp [g₀, stage, h.bufferPtr])
      have hpre : file <+: y := by
        refine List.prefix_of_prefix_length_le (List.prefix_append file tail) hy hle
      rw [staged_congr (complete_ptr b g₀), complete_filesize hc,
        show g₀.totalFilesize = g.totalFilesize from rfl, hftn,
        ← staged_take g₀ (show file.length ≤ y.length + (p.appdata.take p.datalen).length by omega),
        hstaged, h.contents, List.take_append_of_le_length hle]
      exact (List.prefix_iff_eq_take.mp hpre).symm

theorem Begun.upload_accepted {file tail : List UInt8} (h : Begun file.length y g)
    (hshift : g.shift ≠ 0) (hsaf : g.supportSafari = false) {u : Uninit} {d : Delivery}
    {ds : List Delivery} {a : List UInt8} {g₀ : Vars}
    (hfirst : upgradeCgi b u false ⟨terminateUrl 1 (d.data ++ d.stale), d.data.length⟩ g₀ =
      some (0, a, g))
    (hds : y ++ (ds.map (·.data)).flatten = file ++ tail)
    (hn : (file ++ tail).length + d.data.length < 2 ^ 32)
    (hfit : y.length + d.data.length < file.length ∨ file.length ≤ y.length) {g' : Vars}
    (hg : some (1, g') ∈ upload b u (d :: ds) g₀) : staged g' g'.totalFilesize.toNat = file := by
  have hlen := congrArg List.length hds
  simp only [List.length_append] at hlen hn
  obtain ⟨ret, g₁, hsecond, hcase⟩ := h.secondCall (b := b) tail hshift hsaf d.uninit
    ⟨a, d.data.length⟩ (by simp only; omega) (by omega) ⟨_, hds⟩ hfit
  simp only [upload, hfirst, hsecond, List.mem_cons, Option.some.injEq, Prod.mk.injEq] at hg
  rcases hg with ⟨h0, -⟩ | ⟨h1, rfl⟩ | hg
  · cases h0
  · rcases hcase with ⟨h0, -⟩ | ⟨-, hacc⟩
    · omega
    · exact hacc h1.symm
  · rcases hcase with ⟨rfl, hbeg, hsh, hs⟩ | ⟨hne, -⟩
    · rw [if_pos rfl] at hg
      rcases hsh with rfl | hsh
      · exact absurd hg (calls_stuck hbeg.packets hbeg.size hs ds g')
      · exact hbeg.accepted hsh hs hds (by simp only [List.length_append]; omega) hg
    · rw [if_neg hne] at hg
      cases hg

end

section

variable {f : Form} (hf : f.WellFormed)

include hf

theorem boundary_tenDashes (hb : f.browser = .internetExplorer ∨ f.browser = .opera) :
    hasPrefix f.boundary (ascii "----------") = true := by
  have h := hf.boundaryIs
  rw [show ascii "----------" = dashes 10 by decide]
  by_contra h10
  have h10' : hasPrefix f.boundary (dashes 10) = false := by simpa using h10
  have h12 := hasPrefix_dashes_mono h10' (show 10 ≤ 12 by decide)
  have h29 := hasPrefix_dashes_mono h10' (show 10 ≤ 29 by decide)
  rcases hb with hb | hb <;> simp [hb, Browser.boundaryIs, h12, h29] at h

theorem covers_header : Covers f f.header := ⟨fun _ h ↦ h, hf.announced, hf.sized⟩

/-- The header loop on a first segment that goes on behind the header. -/
theorem headerLoop_head (hb : f.browser ≠ .firefox) (rest : List UInt8) (len : ℕ)
    (hlen : f.head.length ≤ len) {g : Vars} (hg : g.supportFireFox = false) :
    ∃ g₁, headerLoop (len + 1)
        ⟨lines crlf ((postUrl ++ 0 :: f.version) :: f.header) ++ (crlf ++ rest), len, 0⟩ g =
        some (⟨lines [0, 0] ((postUrl ++ 0 :: f.version) :: f.header) ++ 0 :: 0 :: rest, len,
          f.head.length⟩, g₁) ∧
      g₁.totalPackets = 1 ∧ { g₁ with totalPackets := 2, shift := 0 } = opened f g := by
  have hline : ∀ l ∈ f.header, IsLine l := fun l hl ↦ (hf.header l hl).isLine
  have hstop := unstopped_of_notFirefox (contentLength_pos f) hb hf.header
    (g := { g with totalSize := 0, totalFilesize := 0, totalPackets := 1 }) hg
  refine ⟨_, ?_, readHeader_packets (contentLength_pos f) hf.header
    { g with totalSize := 0, totalFilesize := 0, totalPackets := 1 },
    readHeader_opened hf (covers_header hf) g⟩
  have hhead := head_length f
  have htwo := two_mul_length_le_lines ((postUrl ++ 0 :: f.version) :: f.header)
  rw [List.length_cons] at htwo
  obtain ⟨m, hm⟩ : ∃ m, len + 1 = f.header.length + (m + 1) + 1 :=
    ⟨len - f.header.length - 1, by omega⟩
  rw [hm, headerLoop_post hf.version f.header hline (m + 1) len _ g (by omega) hstop,
    ← lines_length, headerLoop_blank m len _ _ _ (by rw [lines_length]; omega), lines_length, hhead]

/-- Header and part header of a form after their lines have been read, where `blank` is what has
become of the empty line between them. -/
def clearedHead (f : Form) (blank : List UInt8) : List UInt8 :=
  lines [0, 0] ((postUrl ++ 0 :: f.version) :: f.header) ++ blank ++
    (lines [0, 0] [f.boundary, f.disposition, f.contentType] ++ crlf)

/-- Internet Explorer and Opera: header and part header in the first segment. -/
theorem firstCall_joined (hb : f.browser = .internetExplorer ∨ f.browser = .opera)
    {d : Delivery} {y : List UInt8} (hd : d.data = f.head ++ (f.part ++ y))
    (h1446 : d.data.length ≠ 1446) (b : Board) (u : Uninit) {g : Vars} (hp : g.totalPackets = 0)
    (hff : g.supportFireFox = false) (hsaf : g.supportSafari = false) :
    ∃ g', upgradeCgi b u false ⟨terminateUrl 1 (d.data ++ d.stale), d.data.length⟩ g =
        some (0, clearedHead f [0, 0] ++ (y ++ d.stale), g') ∧
      Begun f.file.length y g' ∧ g'.shift ≠ 0 ∧ g'.supportSafari = false := by
  have hbf : f.browser ≠ .firefox := by rcases hb with h | h <;> simp [h]
  have hhead := head_length f
  have hlen : d.data.length = f.head.length + f.part.length + y.length := by
    rw [hd]
    simp only [List.length_append]
    omega
  have hpart := part_length f
  set pre := lines [0, 0] ((postUrl ++ 0 :: f.version) :: f.header) ++ [0, 0] with hpre
  have hprelen : pre.length = f.head.length := by
    rw [hpre, List.length_append, lines_length, hhead]
    rfl
  set tail := lines crlf [f.disposition, f.contentType] ++ (crlf ++ (y ++ d.stale)) with htail
  have hdata : terminateUrl 1 (d.data ++ d.stale) =
      lines crlf ((postUrl ++ 0 :: f.version) :: f.header) ++
        (crlf ++ (f.part ++ (y ++ d.stale))) := by
    rw [hd, Form.head, List.append_assoc, List.append_assoc, terminateUrl_lines]
    simp
  obtain ⟨g₁, hloop, hone, hopen⟩ := headerLoop_head hf hbf (f.part ++ (y ++ d.stale))
    d.data.length (by omega) hff
  have hr : lines [0, 0] ((postUrl ++ 0 :: f.version) :: f.header) ++
      0 :: 0 :: (f.part ++ (y ++ d.stale)) = pre ++ (f.boundary ++ (crlf ++ tail)) := by
    simp [Form.part, hpre, htail]
  rw [← hdata, hr, ← hprelen] at hloop
  have hff₁ : g₁.supportFireFox = false := by
    have h := congrArg Vars.supportFireFox hopen
    simpa [opened, setAgent, hff, hbf] using h
  have hsaf₁ : g₁.supportSafari = false := by
    have h := congrArg Vars.supportSafari hopen
    rcases hb with hb | hb <;> simpa [opened, setAgent, hsaf, hb] using h
  have hsize₁ : g₁.totalFilesize = UInt32.ofNat f.contentLength :=
    congrArg Vars.totalFilesize hopen
  have hfind : findBoundary d.data.length (pre ++ (f.boundary ++ (crlf ++ tail)))
      (some ⟨pre ++ (f.boundary ++ (crlf ++ tail)), d.data.length, pre.length⟩)
      { g₁ with totalPackets := 2 } =
      some (⟨pre ++ (f.boundary ++ [0, 0]) ++ tail, d.data.length,
          (pre ++ (f.boundary ++ [0, 0])).length⟩,
        { g₁ with
          totalPackets := 2, shift := f.head.length, contentLength := f.boundary.length }) := by
    have hget := getRequestLine_crlf pre f.boundary tail d.data.length hf.boundary.eolFree (by omega)
    have hat := lineAt_line hf.boundary pre (0 :: tail)
    have hi : pre.length + f.boundary.length + 2 = (pre ++ (f.boundary ++ [0, 0])).length := by
      simp only [List.length_append, List.length_cons, List.length_nil]
      omega
    simp only [findBoundary, hff₁, Bool.false_eq_true, if_false, Option.bind_some, hget, hat,
      boundary_tenDashes hf hb, if_true, hi]
    simp [hprelen]
  obtain ⟨k, hk⟩ : ∃ k, d.data.length + 1 = k + 2 := ⟨d.data.length - 1, by omega⟩
  obtain ⟨g', hbody, hbeg, hsh, hs⟩ := bodyLoop_part hf k d.data.length f.head.length
    (pre ++ (f.boundary ++ [0, 0])) y d.stale
    (g := { g₁ with
      totalPackets := 2, shift := f.head.length, contentLength := f.boundary.length })
    hff₁ hsaf₁ rfl rfl hsize₁ rfl
    (by simp only [List.length_append, List.length_cons, List.length_nil, hprelen]; omega)
    hlen h1446
  refine ⟨g', ?_, hbeg, by omega, hs⟩
  rw [upgradeCgi_first hp hloop hone]
  simp only [hfind, Option.bind_some, hk]
  rw [hbody, Option.map_some]
  simp [clearedHead, hpre]

end

end UBoot.Httpd.PartHeader
