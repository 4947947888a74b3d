import UBoot.Httpd.Segmentation

namespace UBoot.Httpd.HwidGate

open Lib.CString Cgi Appcall RequestLine Upload Multipart PartHeader Segmentation

/-- The bytes of the staging area that are compared with the hardware ID of the board: where they
start and how many they are. -/
def hwidRange (totalFilesize : ℕ) : ℕ × ℕ :=
  if totalFilesize ≤ 512 * 1024 then (0x400, loaderHwidLen)
  else (totalFilesize - hwidLen, kernelHwidLen)

/-- The comparison as `complete` makes it. -/
def hwidMatches (b : Board) (g : Vars) : Bool :=
  let (off, n) := hwidRange g.totalFilesize.toNat
  strncmpEq n (fun k ↦ g.ptr (off + k)) b.hwid

/-- The bytes that were compared are the bytes of the file at the same place. -/
def HwidFromFile (f : Form) (g : Vars) : Prop :=
  let (off, n) := hwidRange g.totalFilesize.toNat
  ∀ k < n, f.file[off + k]? = some (g.ptr (off + k))

/-- The requests that switch the check off. -/
def isNoHwid (url : List UInt8) : Bool :=
  hasPrefix url (ascii "/test_nohwid.html") && url[17]? == some 0

/-- A request: a page, or a POST to `/cgi/index` with any contents in any segments. -/
inductive Visit
  | page (url : List UInt8)
  | post (u : Uninit) (ds : List Delivery)

/-- The server after a request, unless a call of `upgrade_cgi` did not return. -/
def visit (h : App) : Visit → Option App
  | .page url => some (openPage 0 (ascii "GET " ++ url) h).2
  | .post u ds =>
    (upload h.board u ds h.vars).getLast?.join.map fun (_, vars) ↦ { h with vars := vars }

section

variable {b : Board} {u : Uninit} {g g' : Vars}

theorem complete_accepted (hb : b.httpdNoHwid = false) (h : complete b g = (1, g')) :
    hwidMatches b g' = true := by
  have hfile := complete_filesize h
  have hptr : g'.ptr = g.ptr := by
    have := complete_ptr b g
    rwa [h] at this
  simp only [hwidMatches, hwidRange, hfile, hptr]
  simp only [complete, hb, Bool.not_false, Bool.true_and] at h
  have hsize : g.totalFilesize ≤ 512 * 1024 ↔ g.totalFilesize.toNat ≤ 512 * 1024 := by
    rw [UInt32.le_iff_toNat_le]
    rfl
  by_cases hs : g.totalFilesize ≤ 512 * 1024
  · rw [if_pos hs] at h
    rw [if_pos (hsize.mp hs)]
    split_ifs at h with hlarge hmatch
    · cases h
    · cases h
    · simpa using hmatch
  · rw [if_neg hs] at h
    rw [if_neg (fun hn ↦ hs (hsize.mpr hn))]
    split_ifs at h with hmatch
    · cases h
    · simpa using hmatch

theorem dataPacket_accepted {p : Packet} (h : dataPacket b p g = (1, g')) :
    ∃ g₁, complete b g₁ = (1, g') := by
  simp only [dataPacket] at h
  split_ifs at h
  · cases h
  · cases h
  · exact ⟨_, h⟩

/-- A call that returns 1 has made the checks on a complete image. -/
theorem upgradeCgi_accepted {p : Packet} {a : List UInt8}
    (h : upgradeCgi b u false p g = some (1, a, g')) : ∃ g₁, complete b g₁ = (1, g') := by
  have hbody : ∀ {p : Packet} {r : Option Request} {g : Vars},
      upgradeBody b p r g = some (1, a, g') → ∃ g₁, complete b g₁ = (1, g') := by
    intro p r g h
    simp only [upgradeBody] at h
    split_ifs at h
    · obtain ⟨⟨r', g₁⟩, -, h⟩ := Option.bind_eq_some_iff.mp h
      obtain ⟨x, -, h⟩ := Option.map_eq_some_iff.mp h
      cases h
    · obtain ⟨hret, -, hg⟩ := by simpa using h
      exact dataPacket_accepted (Prod.ext hret hg)
    · cases h
  simp only [upgradeCgi, Bool.false_eq_true, if_false] at h
  split_ifs at h
  · obtain ⟨⟨r, g₁⟩, -, h⟩ := Option.bind_eq_some_iff.mp h
    exact hbody h
  · exact hbody h

theorem calls_accepted {ds : List Delivery} (h : some (1, g') ∈ calls b ds g) :
    ∃ g₁, complete b g₁ = (1, g') := by
  induction ds generalizing g with
  | nil => simp [calls] at h
  | cons d ds ih =>
    rw [calls] at h
    cases hr : upgradeCgi b d.uninit false d.packet g with
    | none => simp [hr] at h
    | some res =>
      obtain ⟨ret, a, g₁⟩ := res
      simp only [hr, List.mem_cons, Option.some.injEq, Prod.mk.injEq] at h
      rcases h with ⟨rfl, rfl⟩ | h
      · exact upgradeCgi_accepted hr
      · split_ifs at h
        · exact ih h
        · simp at h

/-- The call that returns 1 in an upload has compared the hardware ID. -/
theorem upload_hwidMatches (hb : b.httpdNoHwid = false) {ds : List Delivery}
    (h : some (1, g') ∈ upload b u ds g) : hwidMatches b g' = true := by
  obtain ⟨g₁, hc⟩ : ∃ g₁, complete b g₁ = (1, g') := by
    cases ds with
    | nil => simp [upload] at h
    | cons d ds =>
      rw [upload] at h
      cases hr : upgradeCgi b u false ⟨terminateUrl 1 (d.data ++ d.stale), d.data.length⟩ g with
      | none => simp [hr] at h
      | some res =>
        obtain ⟨ret, a, g₁⟩ := res
        simp only [hr, List.mem_cons, Option.some.injEq, Prod.mk.injEq] at h
        rcases h with ⟨rfl, rfl⟩ | h
        · exact upgradeCgi_accepted hr
        · cases hr' : upgradeCgi b d.uninit false ⟨a, d.data.length⟩ g₁ with
          | none => simp [hr'] at h
          | some res =>
            obtain ⟨ret', a', g₂⟩ := res
            simp only [hr', List.mem_cons, Option.some.injEq, Prod.mk.injEq] at h
            rcases h with ⟨rfl, rfl⟩ | h
            · exact upgradeCgi_accepted hr'
            · split_ifs at h
              · exact calls_accepted h
              · simp at h
  exact complete_accepted hb hc

end

theorem visit_board {h h' : App} {v : Visit} (hv : ∀ url, v = .page url → isNoHwid url = false)
    (h₁ : visit h v = some h') : h'.board = h.board := by
  cases v with
  | page url =>
    obtain rfl := Option.some.inj h₁
    have hurl : (ascii "GET " ++ url).drop (4 + 0) = url := rfl
    have hno := hv url rfl
    simp only [isNoHwid] at hno
    simp only [openPage, hurl, hno, Bool.false_eq_true, if_false]
    split_ifs <;> rfl
  | post u ds =>
    obtain ⟨r, -, rfl⟩ := Option.map_eq_some_iff.mp h₁
    rfl

theorem visits_board {h h' : App} {vs : List Visit}
    (hvs : ∀ url, Visit.page url ∈ vs → isNoHwid url = false)
    (hrun : vs.foldlM visit h = some h') : h'.board = h.board := by
  induction vs generalizing h with
  | nil =>
    obtain rfl := Option.some.inj hrun
    rfl
  | cons v vs ih =>
    rw [List.foldlM_cons] at hrun
    obtain ⟨m, hm, hrest⟩ := Option.bind_eq_some_iff.mp hrun
    have hfirst : m.board = h.board := by
      apply visit_board _ hm
      rintro url rfl
      exact hvs url (by simp)
    rw [ih (fun url hurl ↦ hvs url (by simp [hurl])) hrest, hfirst]

/-- When the staging area holds the file, only a file that ends before the hardware ID of a boot
loader image lets other bytes into the check. -/
theorem hwidFromFile_iff {f : Form} {g : Vars} (h : staged g g.totalFilesize.toNat = f.file) :
    HwidFromFile f g ↔ 0x416 ≤ f.file.length := by
  have hlen : g.totalFilesize.toNat = f.file.length := by
    rw [← h, staged_length]
  have hget : ∀ i, i < f.file.length → f.file[i]? = some (g.ptr i) := by
    intro i hi
    rw [← h]
    simp [staged, hlen, hi]
  simp only [HwidFromFile, hwidRange, hlen]
  by_cases hsmall : f.file.length ≤ 512 * 1024
  · rw [if_pos hsmall]
    constructor
    · intro hall
      have hlast := hall 21 (by decide)
      have hlt := (List.getElem?_eq_some_iff.mp hlast).1
      omega
    · intro hfile k hk
      have hk22 : k < 22 := hk
      exact hget _ (by omega)
  · rw [if_neg hsmall]
    constructor
    · intro _
      omega
    · intro _ k hk
      have hk24 : k < 24 := hk
      have h24 : hwidLen = 24 := rfl
      exact hget _ (by omega)

/-- After any requests but `/test_nohwid.html`, an upload that the parser can follow and that is
accepted has passed the check, and it passed on bytes of its own file just when the file is long
enough to have a hardware ID. -/
theorem hwid_gate {vs : List Visit} {h₀ h : App} (hcheck : h₀.board.httpdNoHwid = false)
    (hnever : ∀ url, Visit.page url ∈ vs → isNoHwid url = false)
    (hrun : vs.foldlM visit h₀ = some h) {f : Form} (hf : f.WellFormed) (hopens : Opens f h.vars)
    {ds : List Delivery} (hcut : Cut f ds) (hds : (ds.map (·.data)).flatten = f.stream)
    (hn : f.stream.length < 2 ^ 31) {u : Uninit} {g : Vars}
    (hg : some (1, g) ∈ upload h.board u ds h.vars) :
    hwidMatches h.board g = true ∧ (HwidFromFile f g ↔ 0x416 ≤ f.file.length) := by
  have hb : h.board.httpdNoHwid = false := by
    rw [visits_board hnever hrun, hcheck]
  refine ⟨upload_hwidMatches hb hg, ?_⟩
  apply hwidFromFile_iff
  exact upload_accepted hf hopens hcut hds hn hg

/-- The hardware ID of `bsp.h`. -/
def boardHwid : CStr := ascii "AP81-AR9130-RT-070614-02"

/-- The server at its start, on a board with that hardware ID. -/
def freshServer : App where
  hs := ⟨.noget, 0, [], none⟩
  board := ⟨false, fun k ↦ boardHwid.getD k 0⟩
  vars := startUp fun _ ↦ 0
  flags := {}
  send := none
  calls := []

/-- A form of Opera with its own boundary. -/
def boundaryForm (boundary file : List UInt8) : Form :=
  { sampleForm file with
    boundary := boundary
    header := [ascii "User-Agent: Opera",
      lengthLine (boundary.length + 55 + file.length + (boundary.length + 6))] }

theorem boundaryForm_contentLength (boundary file : List UInt8) :
    (boundaryForm boundary file).contentLength =
      boundary.length + 55 + file.length + (boundary.length + 6) := by
  have hdisp : (ascii "Content-Disposition: form-data").length = 30 := rfl
  have htype : (ascii "Content-Type: a/b").length = 17 := rfl
  have hend : (ascii "--").length = 2 := rfl
  simp [Form.contentLength, Form.part, Form.trailer, boundaryForm, sampleForm, hdisp, htype, hend]
  omega

theorem boundaryForm_wellFormed {boundary : List UInt8} (hb : IsLine boundary)
    (hd : hasPrefix boundary (dashes 12) = true) (file : List UInt8) :
    (boundaryForm boundary file).WellFormed := by
  have hw := sampleForm_wellFormed file
  have hsize := boundaryForm_contentLength boundary file
  have hagent : ∀ n, IsHeader .opera n (ascii "User-Agent: Opera") :=
    fun _ ↦ ⟨by decide, by decide, fun _ ↦ by decide, fun h ↦ absurd h (by decide)⟩
  exact {
    version := hw.version
    header := by
      intro l hl
      rw [hsize]
      rcases List.mem_cons.mp hl with rfl | hl
      · exact hagent _
      · rw [List.mem_singleton.mp hl]
        exact ⟨lengthLine_isLine _, rfl,
          fun h ↦ absurd h (by rw [lengthLine_notAgent]; decide), fun _ ↦ rfl⟩
    announced := .inr rfl
    sized := by
      rw [hsize]
      exact List.mem_cons_of_mem _ (List.mem_singleton_self _)
    boundary := hb
    boundaryIs := hd
    disposition := hw.disposition
    notDashes := hw.notDashes
    notContentType := hw.notContentType
    contentType := hw.contentType
    isContentType := hw.isContentType }

/-- The header, the part header with 500 bytes of the file, and the rest. -/
def threeSegments (f : Form) : List Delivery :=
  [⟨f.head, [], idle⟩, ⟨f.part ++ f.file.take 500, [], idle⟩,
    ⟨f.file.drop 500 ++ f.trailer, [], idle⟩]

theorem threeSegments_cut {boundary : List UInt8} (hb : IsLine boundary)
    (hd : hasPrefix boundary (dashes 12) = true) (file : List UInt8)
    (hsize : boundary.length + 555 < 1446) :
    Cut (boundaryForm boundary file) (threeSegments (boundaryForm boundary file)) := by
  have hquiet : Quiet idle := by decide
  have hpart : (boundaryForm boundary file).part.length = boundary.length + 30 + 17 + 8 :=
    part_length (boundaryForm boundary file)
  have htake : (file.take 500).length ≤ 500 := by simp
  refine .split _ [] _ _ (boundaryForm boundary file).header crlf (file.take 500) (.inr (.inl rfl))
    (covers_header (boundaryForm_wellFormed hb hd file)) rfl (.inl rfl) (by simp) (by simp) rfl ?_
    hquiet hquiet
  change ((boundaryForm boundary file).part ++ file.take 500).length ≠ 1446
  rw [List.length_append]
  omega

/-- An image with the hardware ID at its place. -/
def loaderImage : List UInt8 := List.replicate 0x400 0 ++ boardHwid

/-- A file without one, too short by the end of the boundary that follows it. -/
def shortImage : List UInt8 := List.replicate 1010 0

def hwidBoundary : CStr := dashes 12 ++ boardHwid

/-- The upload of an image with the wrong hardware ID, and a visit to the start page. -/
def earlierVisits : List Visit := [.post idle fileCut, .page (ascii "/")]

/-- The second upload, of the right image. -/
def imageForm : Form := boundaryForm (dashes 12) loaderImage

theorem imageForm_wellFormed : imageForm.WellFormed :=
  boundaryForm_wellFormed (by decide) (by decide) loaderImage

theorem imageForm_cut : Cut imageForm (threeSegments imageForm) :=
  threeSegments_cut (by decide) (by decide) loaderImage (by decide)

theorem hwid_gate_second : ∃ h g, earlierVisits.foldlM visit freshServer = some h ∧
    some (1, g) ∈ upload h.board idle (threeSegments imageForm) h.vars ∧
      hwidMatches h.board g = true ∧ HwidFromFile imageForm g := by
  have hrun : (earlierVisits.foldlM visit freshServer).map (fun h ↦
      (h.vars.totalPackets, h.vars.supportFireFox, h.vars.supportSafari,
        acceptedSizes (upload h.board idle (threeSegments imageForm) h.vars))) =
      some (0, false, false, [1048]) := by
    decide +kernel
  obtain ⟨h, hvisits, hvars⟩ := Option.map_eq_some_iff.mp hrun
  simp only [Prod.mk.injEq] at hvars
  obtain ⟨hpackets, hfirefox, hsafari, hsizes⟩ := hvars
  obtain ⟨g, hg, -⟩ := exists_accepted (n := 1048) (by rw [hsizes]; exact List.mem_singleton_self _)
  have hopens : Opens imageForm h.vars := by
    refine ⟨hpackets, .inl hfirefox, .inl hsafari, ?_⟩
    intro hb
    exact absurd hb (by decide)
  have hnever : ∀ url, Visit.page url ∈ earlierVisits → isNoHwid url = false := by
    intro url hurl
    obtain rfl : url = ascii "/" := by simpa [earlierVisits] using hurl
    decide
  have hcheck : freshServer.board.httpdNoHwid = false := rfl
  obtain ⟨hmatches, hfile⟩ := hwid_gate hcheck hnever hvisits imageForm_wellFormed hopens
    imageForm_cut (by decide +kernel) (by decide +kernel) hg
  exact ⟨h, g, hvisits, hg, hmatches, hfile.mpr (by decide +kernel)⟩

/-- The hardware ID in the boundary stands behind the short file where the check looks for it. -/
theorem hwid_gate_boundary :
    ¬ ∀ (f : Form) (h : App) (u : Uninit) (ds : List Delivery) (g : Vars), f.WellFormed →
      h.vars = startUp (fun _ ↦ 0) → h.board.httpdNoHwid = false →
      (ds.map (·.data)).flatten = f.stream → some (1, g) ∈ upload h.board u ds h.vars →
      HwidFromFile f g := by
  intro hall
  have hmem : 1010 ∈ acceptedSizes (upload freshServer.board idle
      (threeSegments (boundaryForm hwidBoundary shortImage)) freshServer.vars) := by
    decide +kernel
  obtain ⟨g, hg, hsize⟩ := exists_accepted hmem
  have hfile := hall (boundaryForm hwidBoundary shortImage) freshServer idle _ g
    (boundaryForm_wellFormed (by decide) (by decide) shortImage) rfl rfl (by decide +kernel) hg
  simp only [HwidFromFile, hsize] at hfile
  have hbyte := hfile 0 (by decide)
  rw [List.getElem?_eq_none (by decide +kernel)] at hbyte
  cases hbyte

end UBoot.Httpd.HwidGate
