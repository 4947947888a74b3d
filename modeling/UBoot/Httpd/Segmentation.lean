import UBoot.Httpd.Firefox

namespace UBoot.Httpd.Segmentation

open Lib.CString LibGeneric.Vsprintf Cgi Appcall RequestLine Upload Multipart PartHeader Firefox

/-- The header has been read and the part header is awaited. -/
structure Ready (f : Form) (g : Vars) : Prop where
  packets : g.totalPackets = 2
  filesize : g.totalFilesize = UInt32.ofNat f.contentLength
  firefox : g.supportFireFox = false
  safari : g.supportSafari = false

theorem boundaryLine_frame (l : CStr) (g : Vars) :
    boundaryLine l g = { g with contentLength := (boundaryLine l g).contentLength } := by
  unfold boundaryLine
  split_ifs <;> rfl

theorem contentType_nulFree : NulFree (ascii "Content-Type:") := by
  decide

theorem notContentType_of_read {r r' : Request} (h : LineRead r r')
    (hno : ∀ j, ¬ ascii "Content-Type:" <+: (r.appdata.take r.requestLen).drop j) :
    hasPrefix (lineAt r'.appdata r.requestIdx) (ascii "Content-Type:") = false := by
  by_contra hct
  have hp : ascii "Content-Type:" <+: lineAt r'.appdata r.requestIdx := by
    simpa [hasPrefix] using hct
  exact hno _ (h.prefix_of_line contentType_nulFree hp)

/-- The second loop on a packet without the text `Content-Type:` only looks for a boundary. -/
theorem bodyLoop_frame {datalen n : ℕ} {r : Request} {g g' : Vars} {a : List UInt8}
    (h : bodyLoop datalen n r g = some (a, g')) (hff : g.supportFireFox = false)
    (hsaf : g.supportSafari = false)
    (hno : ∀ j, ¬ ascii "Content-Type:" <+: (r.appdata.take r.requestLen).drop j) :
    g' = { g with contentLength := g'.contentLength } := by
  induction n generalizing r g with
  | zero => simp [bodyLoop] at h
  | succ n ih =>
    obtain ⟨⟨line, r₁⟩, hget, h⟩ := Option.bind_eq_some_iff.mp h
    cases line with
    | none =>
      obtain ⟨-, rfl⟩ := Prod.mk.inj (Option.some.inj h)
      rfl
    | some i =>
      obtain ⟨rfl, hlen, hread⟩ := getRequestLine_spec hget
      have hct := notContentType_of_read hread hno
      simp only [hsaf, Bool.false_and, Bool.false_eq_true, if_false, hff, hct] at h
      split_ifs at h
      · obtain ⟨-, rfl⟩ := Prod.mk.inj (Option.some.inj h)
        rfl
      · have hb := boundaryLine_frame (lineAt r₁.appdata r.requestIdx) g
        have hr := ih h (by rw [hb]; exact hff) (by rw [hb]; exact hsaf) (by
          intro j hp
          rw [hlen] at hp
          exact hno j (hread.prefix_mono contentType_nulFree hp))
        rw [hr, hb]

theorem notContained {d : Delivery} {t : CStr} (h : contains d.data t = false) (j : ℕ) :
    ¬ t <+: (d.packet.appdata.take d.packet.datalen).drop j := by
  intro hp
  simp only [Delivery.packet, List.take_left] at hp
  have hmem : d.data.drop j ∈ d.data.tails := (List.mem_tails _ _).mpr (List.drop_suffix j d.data)
  have hany := List.any_eq_true.mpr ⟨_, hmem, List.isPrefixOf_iff_prefix.mpr hp⟩
  rw [contains, hany] at h
  cases h

theorem Ready.step {f : Form} {g g' : Vars} (h : Ready f g) {b : Board} {d : Delivery} {ret : ℕ}
    {a : List UInt8} (hq : Quiet d.uninit) (hno : contains d.data (ascii "Content-Type:") = false)
    (hr : upgradeCgi b d.uninit false d.packet g = some (ret, a, g')) : ret = 0 ∧ Ready f g' := by
  rw [upgradeCgi_second h.packets (.inr hq)] at hr
  obtain ⟨⟨a', g₁⟩, hbody, hr⟩ := Option.map_eq_some_iff.mp hr
  simp only [Prod.mk.injEq] at hr
  obtain ⟨rfl, -, rfl⟩ := hr
  have hframe := bodyLoop_frame hbody h.firefox h.safari (notContained hno)
  rw [hframe]
  exact ⟨rfl, h.packets, h.filesize, h.firefox, h.safari⟩

theorem Ready.calls_append {f : Form} {g : Vars} (h : Ready f g) {b : Board}
    {mids ds : List Delivery}
    (hmids : ∀ d ∈ mids, Quiet d.uninit ∧ contains d.data (ascii "Content-Type:") = false)
    {g' : Vars} (hg : some (1, g') ∈ calls b (mids ++ ds) g) :
    ∃ g₁, Ready f g₁ ∧ some (1, g') ∈ calls b ds g₁ := by
  induction mids generalizing g with
  | nil => exact ⟨g, h, hg⟩
  | cons d mids ih =>
    obtain ⟨hq, hno⟩ := hmids d (by simp)
    rw [List.cons_append, calls] at hg
    cases hr : upgradeCgi b d.uninit false d.packet g with
    | none => simp [hr] at hg
    | some res =>
      obtain ⟨ret, a, g₁⟩ := res
      obtain ⟨rfl, h₁⟩ := h.step hq hno hr
      simp only [hr, if_true, List.mem_cons, Option.some.injEq, Prod.mk.injEq] at hg
      rcases hg with ⟨h0, -⟩ | hg
      · cases h0
      · exact ih h₁ (fun m hm ↦ hmids m (by simp [hm])) hg

/-- The ways to cut the request of a form that the parser can follow. -/
inductive Cut (f : Form) : List Delivery → Prop
  /-- Header, part header and the beginning of the file in the first segment. -/
  | joined (d : Delivery) (ds : List Delivery) (y : List UInt8)
      (browser : f.browser = .internetExplorer ∨ f.browser = .opera ∨
        ∃ before l₀ mid referer, f.browser = .firefox ∧ Layout f before (l₀ :: mid) referer)
      (data : d.data = f.head ++ (f.part ++ y)) (size : d.data.length ≠ 1446)
      (fits : y.length + d.data.length < f.file.length ∨ f.file.length ≤ y.length) :
      Cut f (d :: ds)
  /-- The part header starts a segment; the header is in front of it. -/
  | split (d : Delivery) (mids : List Delivery) (d' : Delivery) (ds : List Delivery)
      (ls : List CStr) (tail y : List UInt8)
      (browser : f.browser = .internetExplorer ∨ f.browser = .opera ∨ f.browser = .chrome)
      (covers : Covers f ls)
      (first : d.data = lines crlf ((postUrl ++ 0x20 :: f.version) :: ls) ++ tail)
      (ends : tail = crlf ∨ EolFree tail)
      (header : d.data ++ (mids.map (·.data)).flatten = f.head)
      (middle : ∀ m ∈ mids, Quiet m.uninit ∧ contains m.data (ascii "Content-Type:") = false)
      (data : d'.data = f.part ++ y) (size : d'.data.length ≠ 1446)
      (quiet : Quiet d.uninit) (quiet' : Quiet d'.uninit) :
      Cut f (d :: (mids ++ d' :: ds))
  /-- Firefox: the length starts no segment of its own. -/
  | firefox (d d' : Delivery) (ds : List Delivery) (ls after : List CStr) (y : List UInt8)
      (browser : f.browser = .firefox) (opening : Opening f after ls)
      (others : ∀ l ∈ after, isLength l = false)
      (first : d.data = lines crlf ((postUrl ++ 0x20 :: f.version) :: ls))
      (data : d'.data = lines crlf (after ++ [lengthLine f.contentLength]) ++
        (crlf ++ (f.part ++ y)))
      (size : d'.data.length ≠ 1446) : Cut f (d :: d' :: ds)
  /-- Safari: header and part header are the first two segments. -/
  | safari (d d' : Delivery) (ds : List Delivery) (browser : f.browser = .safari)
      (first : d.data = f.head) (data : d'.data = f.part)
      (quiet : Quiet d.uninit) (quiet' : Quiet d'.uninit) : Cut f (d :: d' :: ds)

section

variable {f : Form} {b : Board} {u : Uninit} {ram : ℕ → UInt8} {g' : Vars}

theorem opened_ready
    (hb : f.browser = .internetExplorer ∨ f.browser = .opera ∨ f.browser = .chrome) {g : Vars}
    (hff : g.supportFireFox = false) (hsaf : g.supportSafari = false) : Ready f (opened f g) := by
  refine ⟨rfl, rfl, ?_, ?_⟩ <;>
    rcases hb with hb | hb | hb <;> simp [opened, setAgent, hb, hff, hsaf]

/-- The states in which the upload of `f` can begin: no flag of another browser is set, and for
Safari nothing is left of the last upload. -/
structure Opens (f : Form) (g : Vars) : Prop where
  packets : g.totalPackets = 0
  firefox : g.supportFireFox = false ∨ f.browser = .firefox
  safari : g.supportSafari = false ∨ f.browser = .safari
  clear : f.browser = .safari → g.contentLength = 0 ∧ g.bufferPtr = 0

theorem startUp_opens : Opens f (startUp ram) := ⟨rfl, .inl rfl, .inl rfl, fun _ ↦ ⟨rfl, rfl⟩⟩

/-- Safari counts the part header and the trailer from the length of the second segment. -/
theorem upgradeCgi_safari (hf : f.WellFormed) {g : Vars} (hg : Opens f g)
    (hb : f.browser = .safari) {d : Delivery} (hd : d.data = f.part) (hq : Quiet d.uninit)
    (hn : f.file.length < 2 ^ 32) :
    ∃ a g', upgradeCgi b d.uninit false d.packet (opened f g) = some (0, a, g') ∧
      Staging f.file.length (f.file ++ f.trailer) 0 g' := by
  have hlen : d.data.length = f.part.length := by rw [hd]
  have hpart := part_length f
  have hget := getRequestLine_crlf [] f.boundary
    (lines crlf [f.disposition, f.contentType] ++ (crlf ++ d.stale)) d.data.length
    hf.boundary.eolFree (by simp only [List.length_nil]; omega)
  have hdata : d.packet.appdata = [] ++ (f.boundary ++ (crlf ++
      (lines crlf [f.disposition, f.contentType] ++ (crlf ++ d.stale)))) := by
    simp [Delivery.packet, hd, Form.part]
  have hsize : UInt32.ofNat f.contentLength -
      UInt32.ofNat (d.data.length + (0 + f.boundary.length + 2 + 4)) = UInt32.ofNat f.file.length := by
    rw [hlen, Form.contentLength, trailer_length]
    simp only [UInt32.ofNat_add]
    grind
  have hsaf : (opened f g).supportSafari = true := by
    simp [opened, setAgent, hb]
  let g₁ : Vars := { opened f g with
    contentLength := 0
    totalFilesize := UInt32.ofNat f.file.length
    totalSize := 0
    totalPackets := 3
    supportSafari := true
    shift := 0 }
  refine ⟨[] ++ (f.boundary ++ 0 :: 0 ::
    (lines crlf [f.disposition, f.contentType] ++ (crlf ++ d.stale))), g₁, ?_,
    rfl, ?_, rfl, (hg.clear hb).2, by simp [staged], rfl, .inr rfl⟩
  · have hz : (opened f g).contentLength = 0 := (hg.clear hb).1
    have hfs : (opened f g).totalFilesize = UInt32.ofNat f.contentLength := rfl
    simp only [List.length_nil] at hget
    rw [upgradeCgi_second rfl (.inr hq), hdata]
    simp only [Delivery.packet, bodyLoop]
    rw [hget]
    simp only [Option.bind_some, hsaf, hz, beq_self_eq_true, Bool.and_self, if_true,
      Option.map_some, hfs, hsize]
    rfl
  · exact UInt32.toNat_ofNat_of_lt' (by simpa using hn)

/-- Whatever way the file itself is cut, the image that is accepted is the file of the form. -/
theorem upload_accepted (hf : f.WellFormed) {g₀ : Vars} (hg₀ : Opens f g₀) {ds : List Delivery}
    (hcut : Cut f ds) (hds : (ds.map (·.data)).flatten = f.stream)
    (hn : f.stream.length < 2 ^ 31) (hg : some (1, g') ∈ upload b u ds g₀) :
    staged g' g'.totalFilesize.toNat = f.file := by
  have hstream : f.stream.length =
      f.head.length + (f.part.length + (f.file ++ f.trailer).length) := by
    simp [Form.stream]
  cases hcut with
  | joined d ds y browser data size fits =>
    have hbody : y ++ (ds.map (·.data)).flatten = f.file ++ f.trailer := by
      simpa [Form.stream, data] using hds
    have hlen := congrArg List.length hbody
    have hdlen := congrArg List.length data
    simp only [List.length_append] at hlen hdlen hstream
    obtain ⟨a, g, hfirst, hbeg, hsh, hs⟩ : ∃ a g,
        upgradeCgi b u false ⟨terminateUrl 1 (d.data ++ d.stale), d.data.length⟩ g₀ =
          some (0, a, g) ∧
        Begun f.file.length y g ∧ g.shift ≠ 0 ∧ g.supportSafari = false := by
      rcases browser with hb | hb | ⟨before, l₀, mid, referer, hb, hlay⟩
      · exact ⟨_, firstCall_joined hf (.inl hb) data size b u hg₀.packets
          (hg₀.firefox.resolve_right (by simp [hb])) (hg₀.safari.resolve_right (by simp [hb]))⟩
      · exact ⟨_, firstCall_joined hf (.inr hb) data size b u hg₀.packets
          (hg₀.firefox.resolve_right (by simp [hb])) (hg₀.safari.resolve_right (by simp [hb]))⟩
      · exact ⟨_, firstCall_firefox hf hb hlay data size b u hg₀.packets
          (hg₀.safari.resolve_right (by simp [hb]))⟩
    exact hbeg.upload_accepted hsh hs hfirst hbody (by simp only [List.length_append]; omega) fits hg
  | split d mids d' ds ls tail y browser covers first ends header middle data size quiet
      quiet' =>
    have hbf : f.browser ≠ .firefox := by rcases browser with h | h | h <;> simp [h]
    have hbs : f.browser ≠ .safari := by rcases browser with h | h | h <;> simp [h]
    have hff := hg₀.firefox.resolve_right hbf
    have hbody : y ++ (ds.map (·.data)).flatten = f.file ++ f.trailer := by
      simpa [Form.stream, ← header, data] using hds
    rw [upload_alone hf hbf covers ends first quiet hg₀.packets hff] at hg
    simp only [List.mem_cons, Option.some.injEq, Prod.mk.injEq, one_ne_zero, false_and,
      false_or] at hg
    obtain ⟨g₁, hready, hg⟩ :=
      (opened_ready browser hff (hg₀.safari.resolve_right hbs)).calls_append middle hg
    obtain ⟨a, g₂, hcall, hbeg, hsh, hs⟩ := upgradeCgi_part hf data quiet' hready.firefox
      hready.safari hready.packets hready.filesize size b
    simp only [calls, hcall, if_true, List.mem_cons, Option.some.injEq, Prod.mk.injEq, one_ne_zero,
      false_and, false_or] at hg
    exact hbeg.accepted hsh hs hbody (by omega) hg
  | firefox d d' ds ls after y browser opening others first data h1446 =>
    have hbody : y ++ (ds.map (·.data)).flatten = f.file ++ f.trailer := by
      simpa [Form.stream, Form.head, opening.header_eq, first, data] using hds
    obtain ⟨size, hopen⟩ := upload_opening hf browser opening first b u (d' :: ds)
    obtain ⟨g₁, hann, hup⟩ := hopen hg₀.packets (hg₀.safari.resolve_right (by simp [browser]))
    obtain ⟨a, g₂, hcall, hbeg, hsh, hs⟩ := upgradeCgi_length hf opening others data h1446 hann b
    rw [hup] at hg
    simp only [calls, hcall, if_true, List.mem_cons, Option.some.injEq, Prod.mk.injEq, one_ne_zero,
      false_and, false_or] at hg
    exact hbeg.accepted hsh hs hbody (by omega) hg
  | safari d d' ds browser first data quiet quiet' =>
    have hbody : (ds.map (·.data)).flatten = f.file ++ f.trailer := by
      simpa [Form.stream, first, data] using hds
    have hbf : f.browser ≠ .firefox := by simp [browser]
    rw [upload_alone hf hbf (covers_header hf) (.inl rfl) first quiet hg₀.packets
      (hg₀.firefox.resolve_right hbf)] at hg
    obtain ⟨a, g₁, hcall, hst⟩ := upgradeCgi_safari hf hg₀ browser data quiet'
      (by rw [List.length_append] at hstream; omega) (b := b)
    simp only [calls, hcall, if_true, List.mem_cons, Option.some.injEq, Prod.mk.injEq, one_ne_zero,
      false_and, false_or] at hg
    exact hst.accepted ds hbody.symm (Nat.zero_le _) (by omega) hg

end

/-- The upload does not depend on the segments, where the parser can follow the cut: the image
that is accepted has the size and the contents of the file. -/
theorem upload_segmentation (f : Form) (hf : f.WellFormed) (b : Board) (u : Uninit)
    (ram : ℕ → UInt8) (ds : List Delivery) (hds : (ds.map (·.data)).flatten = f.stream)
    (hn : f.stream.length < 2 ^ 31) (hcut : Cut f ds) (g : Vars)
    (hg : some (1, g) ∈ upload b u ds (startUp ram)) :
    g.totalFilesize.toNat = f.file.length ∧ staged g f.file.length = f.file := by
  have hfile := upload_accepted hf startUp_opens hcut hds hn hg
  have hlen : g.totalFilesize.toNat = f.file.length := by
    rw [← hfile, staged_length]
  exact ⟨hlen, by rw [← hlen, hfile]⟩

/-- A form of Opera. -/
def sampleForm (file : List UInt8) : Form where
  browser := .opera
  version := ascii "HTTP/1.1"
  header := [ascii "User-Agent: Opera", lengthLine (68 + file.length + 19)]
  boundary := ascii "------------x"
  disposition := ascii "Content-Disposition: form-data"
  contentType := ascii "Content-Type: a/b"
  file := file

theorem sampleForm_part (file : List UInt8) : (sampleForm file).part =
    ascii "------------x\r\nContent-Disposition: form-data\r\nContent-Type: a/b\r\n\r\n" := by
  rfl

theorem sampleForm_contentLength (file : List UInt8) :
    (sampleForm file).contentLength = 68 + file.length + 19 := by
  rfl

theorem sampleForm_wellFormed (file : List UInt8) : (sampleForm file).WellFormed := by
  have hagent : IsHeader .opera (68 + file.length + 19) (ascii "User-Agent: Opera") :=
    ⟨by decide, by decide, fun _ ↦ by decide, fun h ↦ absurd h (by decide)⟩
  have hlength : IsHeader .opera (68 + file.length + 19) (lengthLine (68 + file.length + 19)) :=
    ⟨lengthLine_isLine _, rfl, fun h ↦ absurd h (by rw [lengthLine_notAgent]; decide), fun _ ↦ rfl⟩
  have hsized : lengthLine (sampleForm file).contentLength ∈ (sampleForm file).header := by
    rw [sampleForm_contentLength]
    exact List.mem_cons_of_mem _ (List.mem_singleton_self _)
  exact {
    version := show EolFree (ascii "HTTP/1.1") by decide
    header := by
      intro l hl
      rw [sampleForm_contentLength]
      rcases List.mem_cons.mp hl with rfl | hl
      · exact hagent
      · rw [List.mem_singleton.mp hl]
        exact hlength
    announced := .inr rfl
    sized := hsized
    boundary := show IsLine (ascii "------------x") by decide
    boundaryIs := show hasPrefix (ascii "------------x") (dashes 12) = true by decide
    disposition := show IsLine (ascii "Content-Disposition: form-data") by decide
    notDashes := rfl
    notContentType := rfl
    contentType := show IsLine (ascii "Content-Type: a/b") by decide
    isContentType := rfl }

def idle : Uninit := ⟨0, 0⟩

/-- A board on which `/test_nohwid.html` has been requested. -/
def noHwid : Board := ⟨true, fun _ ↦ 0⟩

def acceptedSizes (results : List (Option (ℕ × Vars))) : List UInt32 :=
  results.filterMap fun
    | some (1, g) => some g.totalFilesize
    | _ => none

theorem exists_accepted {results : List (Option (ℕ × Vars))} {n : UInt32}
    (h : n ∈ acceptedSizes results) : ∃ g, some (1, g) ∈ results ∧ g.totalFilesize = n := by
  obtain ⟨r, hr, hn⟩ := List.mem_filterMap.mp h
  split at hn
  · rename_i g
    exact ⟨g, hr, Option.some.inj hn⟩
  · cases hn

/-- The form with a file of two bytes, cut in the file. -/
def fileCut : List Delivery :=
  let f := sampleForm (ascii "FW")
  [⟨f.head, [], idle⟩, ⟨f.part ++ ascii "F", [], idle⟩, ⟨ascii "W" ++ f.trailer, [], idle⟩]

theorem upload_segmentation_fileCut :
    ∃ g, some (1, g) ∈ upload noHwid idle fileCut (startUp fun _ ↦ 0) ∧
      g.totalFilesize.toNat = 2 ∧ staged g 2 = ascii "FW" := by
  have hmem : 2 ∈ acceptedSizes (upload noHwid idle fileCut (startUp fun _ ↦ 0)) := by
    decide +kernel
  obtain ⟨g, hg, -⟩ := exists_accepted hmem
  have hcut : Cut (sampleForm (ascii "FW")) fileCut :=
    .split _ [] _ _ (sampleForm (ascii "FW")).header crlf (ascii "F") (.inr (.inl rfl))
      (covers_header (sampleForm_wellFormed _)) rfl (.inl rfl) (by simp) (by simp) rfl
      (by decide) (by decide) (by decide)
  exact ⟨g, hg, upload_segmentation _ (sampleForm_wellFormed _) noHwid idle (fun _ ↦ 0) fileCut
    (by decide +kernel) (by decide +kernel) hcut g hg⟩

/-- The same form, cut behind the boundary line. -/
def boundaryCut : List Delivery :=
  let f := sampleForm (ascii "FW")
  [⟨f.head, [], idle⟩, ⟨f.boundary ++ crlf, [], idle⟩,
    ⟨lines crlf [f.disposition, f.contentType] ++ crlf ++ f.file ++ f.trailer.take 18, [], idle⟩,
    ⟨f.trailer.drop 18, [], idle⟩]

/-- The boundary line is not subtracted when it has a segment of its own: an image of 17 bytes is
accepted. -/
theorem upload_segmentation_boundaryCut :
    ¬ ∀ (f : Form) (b : Board) (u : Uninit) (ram : ℕ → UInt8) (ds : List Delivery) (g : Vars),
      f.WellFormed → (∀ d ∈ ds, d.data ≠ []) → (ds.map (·.data)).flatten = f.stream →
      some (1, g) ∈ upload b u ds (startUp ram) →
      g.totalFilesize.toNat = f.file.length ∧ staged g f.file.length = f.file := by
  intro h
  have hmem : 17 ∈ acceptedSizes (upload noHwid idle boundaryCut (startUp fun _ ↦ 0)) := by
    decide +kernel
  obtain ⟨g, hg, hsize⟩ := exists_accepted hmem
  have h2 := (h _ noHwid idle (fun _ ↦ 0) boundaryCut g (sampleForm_wellFormed (ascii "FW"))
    (by decide +kernel) (by decide +kernel) hg).1
  rw [hsize] at h2
  exact absurd h2 (by decide)

end UBoot.Httpd.Segmentation
